import FabricOev.Orderer.Footprints

/-!
# Parallel replay is serial replay

A peer that replays the schedule computed for a block, every batch in parallel, ends with
the adapter of a peer that replays the transactions one at a time, batch by batch, in
any order inside a batch. The peer finds a scheduled transaction by its TxID alone, so
this needs each id to lead back to the envelope the orderer scheduled it for.
-/

namespace FabricOev.Orderer

open Go Protos Ledger Bench Lib List StateDbAdapter Result Option Except Wire

variable {d : Bytes}

/-- Where the orderer finds an intent, the peer finds its id and its invocation. -/
theorem extractIntent_some {t : TxIntent}
    (h : extractIntentFromEnvBytes d = .ok (some t)) :
    txIdOf d = .ok (some t.txId) ∧ extractInvocationFromEnvBytes d = .ok t.invocation ∧
      t.Extracted := by
  obtain ⟨env, henv, h⟩ := attempt_bind_eq_some h fun _ => rfl
  obtain ⟨payload, hpay, h⟩ := attempt_bind_eq_some h fun _ => rfl
  obtain ⟨hdr, hhdr, h⟩ := bind_ok.mp h
  obtain ⟨chdr, hchdr, h⟩ := attempt_bind_eq_some h fun _ => rfl
  have hid : txIdOf d = .ok (some chdr.txId) := by
    have hch : channelHeaderOf d = .ok chdr := by
      simp only [channelHeaderOf, henv, hpay, hhdr, hchdr, bind, Except.bind]
    rw [txIdOf, hch]
    rfl
  dsimp only at h
  split at h
  · cases h
  obtain ⟨hdrExt, hext, h⟩ := attempt_bind_eq_some h fun _ => rfl
  obtain ⟨ccId, hcc, h⟩ := bind_ok.mp h
  split at h
  case isFalse => cases h
  rename_i hbench
  obtain ⟨tx, htx, h⟩ := attempt_bind_eq_some h fun _ => rfl
  obtain ⟨actions⟩ := tx
  cases actions with
  | nil => cases h
  | cons act acts =>
    obtain ⟨cap, hcap, h⟩ := attempt_bind_eq_some h fun _ => rfl
    obtain ⟨cpp, hcpp, h⟩ := attempt_bind_eq_some h fun _ => rfl
    simp only at h
    cases hcis : ChaincodeInvocationSpec.unmarshal cpp.input with
    | none => simp [hcis] at h
    | some cis =>
      simp only [hcis] at h
      obtain ⟨spec, hspec, h⟩ := bind_ok.mp h
      obtain ⟨input, hinput, h⟩ := bind_ok.mp h
      cases hargs : input.args with
      | nil => simp [hargs] at h
      | cons fn args =>
        have hinv : extractInvocationFromEnvBytes d = .ok ⟨ccId.name, fn, args⟩ := by
          simp only [extractInvocationFromEnvBytes, henv, hpay, hext, hcc, htx, hcap, hcpp, hcis,
            hspec, hinput, hargs, bind, Except.bind, ofOption]
        simp only [hargs] at h
        split at h
        · rename_i hsb
          obtain ⟨hc, hh, rfl⟩ := map_eq_some_iff.mp (ok.inj h)
          exact ⟨hid, hsb ▸ hinv, .inl ⟨rfl, hh⟩⟩
        · rename_i hsb
          have hyc : ccId.name = ccYcsb := by simpa [isBenchmarkChaincode, hsb] using hbench
          obtain ⟨hc, hh, rfl⟩ := map_eq_some_iff.mp (ok.inj h)
          exact ⟨hid, hyc ▸ hinv, .inr ⟨rfl, hh⟩⟩

theorem txIdOf_ok {o : Option TxIntent} (h : extractIntentFromEnvBytes d = .ok o) :
    ∃ id, txIdOf d = .ok id := by
  unfold txIdOf channelHeaderOf
  obtain ⟨r1, h1, h⟩ := bind_ok.mp h
  rcases attempt_eq_ok h1 with ⟨env, henv, rfl⟩ | ⟨e, herr, rfl⟩
  case inr => exact ⟨none, by rw [herr]; rfl⟩
  obtain ⟨r2, h2, h⟩ := bind_ok.mp h
  rcases attempt_eq_ok h2 with ⟨payload, hpay, rfl⟩ | ⟨e, herr, rfl⟩
  case inr => exact ⟨none, by simp only [henv, herr, bind, Except.bind]; rfl⟩
  obtain ⟨hdr, hhdr, h⟩ := bind_ok.mp h
  obtain ⟨r3, h3, -⟩ := bind_ok.mp h
  simp only [henv, hpay, hhdr, bind, Except.bind]
  rcases attempt_eq_ok h3 with ⟨chdr, hch, rfl⟩ | ⟨e, herr, rfl⟩
  · exact ⟨some chdr.txId, by rw [hch]; rfl⟩
  · exact ⟨none, by rw [herr]; rfl⟩

/-- Every benchmark transaction's id is valid UTF-8, which JSON keeps, and no earlier envelope has
it. -/
def FindsOwn (data : List Bytes) : Prop :=
  ∀ i (h : i < data.length), ∀ t ∈ (extractIntentFromEnvBytes data[i]).toOption.join,
    coerceUtf8 t.txId = t.txId ∧ ∀ d ∈ data.take i, txIdOf d ≠ .ok (some t.txId)

instance (data : List Bytes) : Decidable (FindsOwn data) :=
  inferInstanceAs (Decidable (∀ i (_ : i < data.length), _))

theorem findTxInBlock_of_first {data : List Bytes} {i : Nat} {id : GoString}
    (hi : data[i]? = some d) (hid : txIdOf d = .ok (some id))
    (hok : ∀ d ∈ data, ∃ x, txIdOf d = .ok x)
    (hfirst : ∀ d ∈ data.take i, txIdOf d ≠ .ok (some id)) :
    findTxInBlock data id = .ok (some d) := by
  induction data generalizing i with
  | nil => simp at hi
  | cons d0 ds ih =>
    cases i with
    | zero =>
      obtain rfl : d0 = d := by simpa using hi
      simp [findTxInBlock, hid, bind, Except.bind]
    | succ i =>
      obtain ⟨x, hx⟩ := hok d0 (by simp)
      have hne : x ≠ some id := fun he => hfirst d0 (by simp) (he ▸ hx)
      simp only [findTxInBlock, hx, bind, Except.bind, if_neg hne]
      exact ih (by simpa using hi) (fun d hd => hok d (by simp [hd]))
        fun d hd => hfirst d (by simp [hd])

section Lookup

variable {block : Block} {intents : List TxIntent}
  (hx : extractIntentsFromBlock block.data = .ok intents) {t : TxIntent}
include hx

theorem extractIntents_forall₂ :
    ∃ os, List.Forall₂ (fun d o => extractIntentFromEnvBytes d = .ok o) block.data os ∧
      os.reduceOption = intents := by
  obtain ⟨os, hos, h⟩ := bind_ok.mp hx
  exact ⟨os, mapM_eq_ok.mp hos, ok.inj h⟩

theorem mem_intents (ht : t ∈ intents) :
    ∃ (i : Nat) (d : Bytes), block.data[i]? = some d ∧ extractIntentFromEnvBytes d = .ok (some t) := by
  obtain ⟨os, hos, rfl⟩ := extractIntents_forall₂ hx
  obtain ⟨i, hi⟩ := mem_iff_getElem?.mp (reduceOption_mem_iff.mp ht)
  obtain ⟨hlt, he⟩ := List.getElem?_eq_some_iff.mp hi
  have hlt' : i < block.data.length := hos.length_eq ▸ hlt
  have hget := (forall₂_iff_get.mp hos).2 i hlt' hlt
  refine ⟨i, block.data[i], getElem?_eq_getElem hlt', ?_⟩
  simpa [he] using hget

theorem intents_extracted : ∀ t ∈ intents, t.Extracted := by
  intro t ht
  obtain ⟨i, d, -, hd⟩ := mem_intents hx ht
  exact (extractIntent_some hd).2.2

theorem txIdOf_ok_of_mem (hd : d ∈ block.data) : ∃ id, txIdOf d = .ok id := by
  obtain ⟨os, hos, -⟩ := extractIntents_forall₂ hx
  obtain ⟨i, hi, rfl⟩ := mem_iff_getElem.mp hd
  exact txIdOf_ok ((forall₂_iff_get.mp hos).2 i hi (hos.length_eq ▸ hi))

variable (hf : FindsOwn block.data)
include hf

theorem findsOwn_of_mem (ht : t ∈ intents) :
    ∃ (i : Nat) (d : Bytes), block.data[i]? = some d ∧
      extractIntentFromEnvBytes d = .ok (some t) ∧ coerceUtf8 t.txId = t.txId ∧
      ∀ d ∈ block.data.take i, txIdOf d ≠ .ok (some t.txId) := by
  obtain ⟨i, d, hi, hd⟩ := mem_intents hx ht
  obtain ⟨hlt, he⟩ := List.getElem?_eq_some_iff.mp hi
  exact ⟨i, d, hi, hd, hf i hlt t (by rw [he, hd]; rfl)⟩

theorem coerceUtf8_own (ht : t ∈ intents) : coerceUtf8 t.txId = t.txId := by
  obtain ⟨_, _, -, -, hutf, -⟩ := findsOwn_of_mem hx hf ht
  exact hutf

theorem lookupInvocation_own (ht : t ∈ intents) :
    lookupInvocation block (coerceUtf8 t.txId) = .ok (some t.invocation) := by
  obtain ⟨i, d, hi, hd, hutf, hfirst⟩ := findsOwn_of_mem hx hf ht
  obtain ⟨hid, hinv, -⟩ := extractIntent_some hd
  have hfind := findTxInBlock_of_first hi hid (fun d hd => txIdOf_ok_of_mem hx hd) hfirst
  rw [hutf, lookupInvocation, hfind]
  simp only [hinv, bind, Except.bind, attempt]

end Lookup

/-! ## Serial replay -/

/-- One transaction on the adapter as it is: its writes, or nothing if it fails. -/
def replayIntent (a : StateDbAdapter) (t : TxIntent) : StateDbAdapter :=
  mergeReplay (·.toList) a a (some t.invocation)

/-- One transaction after the other, each seeing all earlier writes. -/
def serialReplay (ts : List TxIntent) (a : StateDbAdapter) : StateDbAdapter :=
  ts.foldl replayIntent a

theorem serialReplay_eq (ts : List TxIntent) (a : StateDbAdapter) :
    serialReplay ts a = adapterStore.serial intentJob ts a := by
  have hstep : replayIntent = fun a t => adapterStore.step a (intentJob t) := by
    funext a t
    exact mergeReplay_eq (fun m => List.Perm.refl _) a a _
  rw [serialReplay, Store.serial, hstep]

/-- The transactions of a schedule, batch by batch and each batch in some order. -/
def Arrangement (intents : List TxIntent) (s : BatchSchedule) (arr : List (List TxIntent)) : Prop :=
  List.Forall₂ (fun e ts => (ts.map (·.txId)).Perm e.txIds ∧ ∀ t ∈ ts, t ∈ intents) s.batches arr

/-- Batches of independent jobs are their jobs one after the other, each batch in any order. -/
theorem runBatches_eq_serial {bs arr : List (List TxIntent)}
    (hr : ∀ b ∈ bs, ∀ t ∈ b, t.Extracted) (hn : ∀ b ∈ bs, b.Nodup)
    (hi : ∀ b ∈ bs, b.Pairwise fun x y => txsConflict x y = false)
    (harr : List.Forall₂ List.Perm bs arr) (a : StateDbAdapter) :
    runBatches (bs.map fun b => b.map fun t => some t.invocation) a =
      adapterStore.serial intentJob arr.flatten a := by
  induction harr generalizing a with
  | nil => rfl
  | @cons b ts bs arr hp _ ih =>
    have hpar : adapterStore.parallel invJob (b.map fun t => some t.invocation) a =
        adapterStore.parallel intentJob b a := by
      rw [Store.parallel, Store.parallel, foldl_map]
      rfl
    have hser : adapterStore.parallel intentJob b a = adapterStore.serial intentJob ts a := by
      refine Store.parallel_eq_serial_perm (fun t ht => (hr b (by simp) t ht).respects) ?_
        (hn b (by simp)) hp a
      exact (hi b (by simp)).imp independent_of_not_conflict
    rw [map_cons, runBatches, foldl_cons, hpar, hser, flatten_cons, Store.serial_append]
    exact ih (fun b hb => hr b (by simp [hb])) (fun b hb => hn b (by simp [hb]))
      (fun b hb => hi b (by simp [hb])) _

section Schedule

variable {block : Block} {intents b : List TxIntent} {s : BatchSchedule} {bytes : Bytes}
  {arr : List (List TxIntent)} (hx : extractIntentsFromBlock block.data = .ok intents)
  (hb : analyzeBatchAndSchedule block = .ok (some bytes))
  (hs : BatchSchedule.unmarshal bytes = some s) (hd : DistinctIntents intents)
  (hf : FindsOwn block.data) (harr : Arrangement intents s arr)

include hx hb hs in
/-- What the peer reads back is, batch by batch, the ids of the batches. -/
theorem analyzed_batches :
    s.batches.map (·.txIds) =
      (scheduleBatches intents).map fun b => b.map fun t => coerceUtf8 t.txId := by
  simp only [analyzeBatchAndSchedule, hx, bind, Except.bind] at hb
  split at hb
  · cases hb
  · cases hb
    rw [BatchSchedule.unmarshal_marshal] at hs
    cases hs
    simp [BatchSchedule.coerce, BatchEntry.coerce, buildBatchSchedule, scheduleBatches,
      Function.comp_def]

theorem mem_of_mem_scheduleBatches (hb : b ∈ scheduleBatches intents) {t : TxIntent} (ht : t ∈ b) :
    t ∈ intents :=
  (scheduleBatches_perm intents).mem_iff.mp (mem_flatten.mpr ⟨b, hb, ht⟩)

theorem nodup_scheduleBatches (hd : DistinctIntents intents) (hb : b ∈ scheduleBatches intents) :
    (b.map (·.txId)).Nodup := by
  obtain ⟨i, rfl⟩ := mem_scheduleBatches hb
  exact hd.sublist (filter_sublist.map _)

include hx hb in
theorem analyzed_nonempty : intents ≠ [] := by
  simp only [analyzeBatchAndSchedule, hx, bind, Except.bind] at hb
  intro hnil
  rw [if_pos hnil] at hb
  cases hb

include hx hb hs hf in
theorem lookupBatches_own :
    lookupBatches block s.batches =
      .ok ((scheduleBatches intents).map fun b => b.map fun t => some t.invocation) := by
  have hrow : ∀ b ∈ scheduleBatches intents,
      (b.map fun t => coerceUtf8 t.txId).mapM (lookupInvocation block) =
        .ok (b.map fun t => some t.invocation) := by
    intro b hb
    refine mapM_eq_ok.mpr ?_
    rw [forall₂_map_left_iff, forall₂_map_right_iff, forall₂_same]
    exact fun t ht => lookupInvocation_own hx hf (mem_of_mem_scheduleBatches hb ht)
  refine mapM_eq_ok.mpr ?_
  have hrows : List.Forall₂ (fun ids invs => ids.mapM (lookupInvocation block) = .ok invs)
      (s.batches.map (·.txIds))
      ((scheduleBatches intents).map fun b => b.map fun t => some t.invocation) := by
    rw [analyzed_batches hx hb hs, forall₂_map_left_iff, forall₂_map_right_iff, forall₂_same]
    exact hrow
  rwa [forall₂_map_left_iff] at hrows

theorem perm_of_map_perm {ts : List TxIntent} (hd : DistinctIntents intents)
    (hts : ∀ t ∈ ts, t ∈ intents) (hb : ∀ t ∈ b, t ∈ intents) (hbn : (b.map (·.txId)).Nodup)
    (h : (ts.map (·.txId)).Perm (b.map (·.txId))) : b.Perm ts := by
  have hinj : ∀ x ∈ intents, ∀ y ∈ intents, x.txId = y.txId → x = y :=
    fun x hx y hy he => inj_on_of_nodup_map hd hx hy he
  refine (perm_ext_iff_of_nodup hbn.of_map (h.nodup_iff.mpr hbn).of_map).mpr fun t => ?_
  constructor
  · intro ht
    obtain ⟨t', ht', he⟩ := mem_map.mp (h.mem_iff.mpr (mem_map_of_mem ht))
    exact hinj t' (hts t' ht') t (hb t ht) he ▸ ht'
  · intro ht
    obtain ⟨t', ht', he⟩ := mem_map.mp (h.mem_iff.mp (mem_map_of_mem ht))
    exact hinj t' (hb t' ht') t (hts t ht) he ▸ ht'

include hx hb hs hd hf harr

theorem arrangement_perm : List.Forall₂ List.Perm (scheduleBatches intents) arr := by
  have hutf : ∀ b ∈ scheduleBatches intents,
      (b.map fun t => coerceUtf8 t.txId) = b.map (·.txId) := by
    intro b hb
    refine map_congr_left fun t ht => ?_
    exact coerceUtf8_own hx hf (mem_of_mem_scheduleBatches hb ht)
  have hbatches : List.Forall₂ (fun ids ts => (ts.map (·.txId)).Perm ids ∧ ∀ t ∈ ts, t ∈ intents)
      ((scheduleBatches intents).map fun b => b.map (·.txId)) arr := by
    rw [← map_congr_left hutf, ← analyzed_batches hx hb hs, forall₂_map_left_iff]
    exact harr
  rw [forall₂_map_left_iff] at hbatches
  refine forall₂_iff_get.mpr ⟨hbatches.length_eq, fun i hi hi' => ?_⟩
  obtain ⟨hp, hmem⟩ := (forall₂_iff_get.mp hbatches).2 i hi hi'
  have hb : (scheduleBatches intents).get ⟨i, hi⟩ ∈ scheduleBatches intents := get_mem _ _
  exact perm_of_map_perm hd hmem (fun t ht => mem_of_mem_scheduleBatches hb ht)
    (nodup_scheduleBatches hd hb) hp

theorem arrangement_flatten : arr.flatten.Perm intents := by
  have hperm := arrangement_perm hx hb hs hd hf harr
  exact (List.Perm.flatten_congr hperm).symm.trans (scheduleBatches_perm intents)

/-! ## The schedule of a block -/

theorem replaySchedule_serial (order : MapOrder) (db : StateDb) :
    replaySchedule order block s db = .ok (adapterStore.serial intentJob arr.flatten
        (StateDbAdapter.new db block.header.number block.data.length)) := by
  have hmem : ∀ b ∈ scheduleBatches intents, ∀ t ∈ b, t ∈ intents :=
    fun b hb t ht => mem_of_mem_scheduleBatches hb ht
  have hrun := runBatches_eq_serial (fun b hb t ht => intents_extracted hx t (hmem b hb t ht))
    (fun b hb => (nodup_scheduleBatches hd hb).of_map)
    (fun b hb => scheduleBatches_independent hd hb) (arrangement_perm hx hb hs hd hf harr)
    (new db block.header.number block.data.length)
  rw [replaySchedule_eq, lookupBatches_own hx hb hs hf, ← hrun]
  rfl

end Schedule

/-- If every benchmark transaction is found under its id, replaying the computed schedule,
whatever order Go ranges over its maps in, is replaying the scheduled transactions one at
a time in any arrangement. -/
theorem replaySchedule_eq_serialReplay {block : Block} {intents : List TxIntent} {bytes : Bytes}
    {s : BatchSchedule} (hx : extractIntentsFromBlock block.data = .ok intents)
    (hb : analyzeBatchAndSchedule block = .ok (some bytes))
    (hs : BatchSchedule.unmarshal bytes = some s) (hd : DistinctIntents intents)
    (hf : FindsOwn block.data) {arr : List (List TxIntent)} (harr : Arrangement intents s arr)
    (order : MapOrder) (db : StateDb) :
    replaySchedule order block s db = .ok (serialReplay arr.flatten
        (StateDbAdapter.new db block.header.number block.data.length)) := by
  rw [serialReplay_eq, replaySchedule_serial hx hb hs hd hf harr]

def createIntent (txId account : GoString) : TxIntent :=
  ⟨txId, ccSmallBank, str "CreateAccount", [account, str "name", str "10", str "10"],
    buildPointHypercube [sbAccountKey account] [sbAccountKey account]⟩

def depositIntent (txId account amount : GoString) : TxIntent :=
  ⟨txId, ccSmallBank, str "DepositChecking", [account, amount],
    buildPointHypercube [sbAccountKey account] [sbAccountKey account]⟩

def paymentIntent (txId src dst amount : GoString) : TxIntent :=
  ⟨txId, ccSmallBank, str "SendPayment", [src, dst, amount],
    buildPointHypercube [sbAccountKey src, sbAccountKey dst] [sbAccountKey src, sbAccountKey dst]⟩

def TxIntent.envelope (t : TxIntent) : Bytes :=
  (SignedTx.bare t.txId t.chaincodeName (t.functionName :: t.args)).envelope

def twoAccounts : StateDb :=
  (serialReplay [createIntent (str "c1") (str "a"), createIntent (str "c2") (str "b")]
    (StateDbAdapter.new StateDb.empty 0 2)).flush

/-- Two deposits share a batch and may be swapped; the payment between their accounts
comes after both. -/
theorem deposits_then_payment :
    let d1 := depositIntent (str "t1") (str "a") (str "5")
    let d2 := depositIntent (str "t2") (str "b") (str "6")
    let p := paymentIntent (str "t3") (str "a") (str "b") (str "7")
    let block : Block := ⟨⟨1, [], []⟩, [d1.envelope, d2.envelope, p.envelope], none⟩
    let s := { scheduleOf [[str "t1", str "t2"], [str "t3"]] with blockNumber := 1 }
    replaySchedule MapOrder.sorted block s twoAccounts =
      .ok (serialReplay [d2, d1, p] (new twoAccounts 1 3)) := by
  intro d1 d2 p block s
  have hx : extractIntentsFromBlock block.data = .ok [d1, d2, p] := by decide +kernel
  have hb : analyzeBatchAndSchedule block = .ok (some s.marshal) := by decide +kernel
  have harr : Arrangement [d1, d2, p] s [[d2, d1], [p]] :=
    .cons (by decide +kernel) (.cons (by decide +kernel) .nil)
  exact replaySchedule_eq_serialReplay hx hb (by decide +kernel) (by decide +kernel)
    (by decide +kernel) harr MapOrder.sorted twoAccounts

/-- The envelope of an intent with the header type MESSAGE: the orderer does not take it
for a transaction. -/
def TxIntent.messageEnvelope (t : TxIntent) : Bytes :=
  let tx := SignedTx.bare t.txId t.chaincodeName (t.functionName :: t.args)
  let chdr := { tx.channelHeader with headerType := 0 }
  let hdr : Header := ⟨encodeFields chdr.toFields, encodeFields tx.signatureHeader.toFields⟩
  let payload : Payload := ⟨some hdr, tx.payload.data⟩
  encodeFields (Envelope.toFields ⟨encodeFields payload.toFields, tx.env.signature⟩)

/-- A message that carries the id of a later deposit is replayed in its place: both ids of
the batch then deposit to `b` and the first deposit is lost, while `a` gets nothing. The
scheduled transactions one at a time, in either order, pay both accounts; and even the
same two ids one at a time would give another balance. -/
theorem message_replayed_for_deposit :
    let m := depositIntent (str "t1") (str "b") (str "5")
    let d1 := depositIntent (str "t1") (str "a") (str "5")
    let d2 := depositIntent (str "t2") (str "b") (str "6")
    let block : Block := ⟨⟨1, [], []⟩, [m.messageEnvelope, d1.envelope, d2.envelope], none⟩
    let s := { scheduleOf [[str "t1", str "t2"]] with blockNumber := 1 }
    let oneByOne := { scheduleOf [[str "t1"], [str "t2"]] with blockNumber := 1 }
    let checking (a : StateDbAdapter) (id : GoString) : Option Int64 :=
      ((sbGetAccount (a.getState ccSmallBank) id).toOption).map (·.checking)
    extractIntentsFromBlock block.data = .ok [d1, d2] ∧ DistinctIntents [d1, d2] ∧
      analyzeBatchAndSchedule block = .ok (some s.marshal) ∧
      BatchSchedule.unmarshal s.marshal = some s ∧
      (replaySchedule MapOrder.sorted block s twoAccounts).map
        (fun a => (checking a (str "a"), checking a (str "b"))) = .ok (some 10, some 16) ∧
      (replaySchedule MapOrder.sorted block oneByOne twoAccounts).map
        (fun a => (checking a (str "a"), checking a (str "b"))) = .ok (some 10, some 21) ∧
      ∀ ts ∈ [[d1, d2], [d2, d1]],
        let a := serialReplay ts (new twoAccounts 1 3)
        (checking a (str "a"), checking a (str "b")) = (some 15, some 16) := by
  decide +kernel

end FabricOev.Orderer
