import FabricOev.BlockStore.CrashRuns

/-!
# What is said of a transaction later

Three entries of the index are under the TxID, and a later transaction with the same TxID
overwrites all of them. So the status of a transaction that was reported as valid stays exactly
if its TxID does not occur in a later block, whatever flag it has there.
-/

namespace FabricOev.BlockStore

open Go Go.Wire Protos Ledger Lib FinMap List TxValidationCode Option

structure Addable (conf : StoreConf) (chain : List Block) : Prop where
  storable : ∀ b ∈ chain, Storable conf b
  serialized : ∀ b ∈ chain, ∃ r, serializeBlock b = .ok r
  numbered : ∀ (i : Nat) b, chain[i]? = some b → b.header.number = UInt64.ofNat i
  short : chain.length + 1 < 2 ^ 63

def storeAfter (conf : StoreConf) (chain : List Block) : Node :=
  Node.run conf (.start :: chain.map fun b => .add b false)

section Chain

variable {conf : StoreConf} {chain : List Block} {id : GoString}

theorem Addable.take (h : Addable conf chain) (i : Nat) : Addable conf (chain.take i) := by
  refine ⟨fun b hb => h.storable b (mem_of_mem_take hb),
    fun b hb => h.serialized b (mem_of_mem_take hb), fun j b hb => ?_, ?_⟩
  · rw [getElem?_take] at hb
    split at hb
    · exact h.numbered j b hb
    · cases hb
  · have := h.short
    rw [length_take]
    omega

theorem storeAfter_append (conf : StoreConf) (chain : List Block) (b : Block) :
    storeAfter conf (chain ++ [b]) = (storeAfter conf chain).step conf (.add b false) := by
  rw [storeAfter, storeAfter, Node.run, Node.run, map_append]
  exact foldl_append

theorem storeAfter_ok (hattrs : conf.attrs = .all) (hmax : conf.maxBlockfileSize < 2 ^ 63)
    (h : Addable conf chain) :
    ∃ s, storeAfter conf chain = .up s ∧ NodeOk conf (chain.length + 1) (.up s) chain := by
  induction chain using reverseRecOn with
  | nil =>
    have hempty : NodeOk conf 0 (.down .empty) [] := .inl ⟨rfl, rfl⟩
    obtain ⟨l, effects, hnew, hrun, hchain, hv, hw, -⟩ := hempty.starts hattrs (by norm_num)
    refine ⟨_, ?_, l, hrun, hchain, hv, hw.succ⟩
    show Node.step conf (.down .empty) .start = _
    rw [Node.step, hnew]
  | append_singleton chain b ih =>
    have hinit := h.take chain.length
    rw [take_left] at hinit
    obtain ⟨s, hs, l, hrun, rfl, hv, hw⟩ := ih hinit
    have hnum : b.header.number = UInt64.ofNat l.placed.length := by
      have := h.numbered l.chain.length b (by simp)
      rwa [l.chain_eq, length_map] at this
    have hmem : b ∈ l.chain ++ [b] := mem_append_right _ mem_cons_self
    obtain ⟨r, hser⟩ := h.serialized b hmem
    obtain ⟨hno | ⟨e, he⟩, -⟩ | ⟨sb, rfl, -, hfirst, hadd⟩ :=
      hrun.addBlock_cases hattrs (h.storable b hmem)
    · exact absurd hnum hno
    · rw [he] at hser
      cases hser
    · refine ⟨s.applyAll (addSteps conf l sb false), ?_, ?_⟩
      · rw [storeAfter_append, hs, Node.step, hadd]
      · rw [length_append]
        exact NodeOk.accept hmax hrun hv hw hnum hfirst

/-- The block has this transaction with the TxID, flagged as valid. -/
def ValidIn (b : Block) (d : Bytes) (id : GoString) : Prop :=
  ∃ (k : Nat) (flags : TxFlags), b.data[k]? = some d ∧ txIdOf d = id ∧
    b.metadataAt MetadataIndex.transactionsFilter = .ok flags ∧
    flags[k]? = some TxValidationCode.valid.toByte

def Occurs (id : GoString) (b : Block) : Prop := ∃ d ∈ b.data, txIdOf d = id

/-- Without an occurrence in the later blocks the entries of the index stay. -/
theorem lookups_of_not_occurs (c c' : List Block) (h : ∀ b ∈ c', ¬ Occurs id b) :
    codeWithId (c ++ c') id = codeWithId c id ∧ envelopeWithId (c ++ c') id = envelopeWithId c id ∧
      blockWithId (c ++ c') id = blockWithId c id := by
  have hnone {β : Type} (f : Block → List (GoString × β))
      (hf : ∀ b, ∀ e ∈ f b, ∃ d ∈ b.data, txIdOf d = e.1) :
      lastOf ((c ++ c').flatMap f) id = lastOf (c.flatMap f) id := by
    have hlater : lastOf (c'.flatMap f) id = none := by
      refine lastOf_eq_none_iff.mpr fun e he hid => ?_
      obtain ⟨b, hb, he⟩ := mem_flatMap.mp he
      obtain ⟨d, hd, hde⟩ := hf b e he
      exact h b hb ⟨d, hd, hde.trans hid⟩
    rw [flatMap_append, lastOf_append, hlater]
    rfl
  refine ⟨hnone _ fun b e he => ?_, hnone _ fun b e he => ?_, hnone _ fun b e he => ?_⟩
  · obtain ⟨x, hx, rfl⟩ := mem_map.mp he
    exact ⟨x.1, (of_mem_zip hx).1, rfl⟩
  · obtain ⟨d, hd, rfl⟩ := mem_map.mp he
    exact ⟨d, hd, rfl⟩
  · obtain ⟨d, hd, rfl⟩ := mem_map.mp he
    exact ⟨d, hd, rfl⟩

/-- The last block in which a TxID occurs is the one that is found. -/
theorem blockWithId_of_occurs {c : List Block} {b : Block} (h : Occurs id b) :
    blockWithId (c ++ [b]) id = some b := by
  obtain ⟨d, hd, hid⟩ := h
  have hlast : lastOf (b.data.map fun d => (txIdOf d, b)) id = some b := by
    refine lastOf_eq_of_unique (mem_map.mpr ⟨d, hd, by rw [hid]⟩) fun u hu => ?_
    obtain ⟨d', -, he⟩ := mem_map.mp hu
    exact (Prod.mk.inj he).2.symm
  rw [blockWithId, flatMap_append, lastOf_append, flatMap_singleton, hlast]
  rfl

/-- No TxID of a stored block makes the key of the checkpoint. -/
theorem txIdOf_ne_clashing {b : StoredBlock} {d : Bytes} (hd : d ∈ b.block.data) :
    txIdOf d ≠ clashingTxId := by
  let p : Placed := ⟨b, 0, 0⟩
  have hd' : d ∈ p.stored.block.data := hd
  rw [← p.map_data_txs] at hd'
  obtain ⟨x, hx, rfl⟩ := mem_map.mp hd'
  have hinfo : x.info ∈ p.txOffsets := by
    rw [← p.map_info_txs]
    exact mem_map_of_mem hx
  obtain ⟨t, ht, htx⟩ := mem_map.mp hinfo
  rw [txIdOf_data hx, ← htx]
  exact b.apart t ht

theorem validIn_of_code {l : Shape}
    (h : codeWithId l.chain id = some TxValidationCode.valid.toByte) :
    ∃ b ∈ l.chain, ∃ d, ValidIn b d id ∧ envelopeWithId l.chain id = some d ∧
      blockWithId l.chain id = some b ∧ id ≠ clashingTxId := by
  have hcode := codeWithId_eq l.layout id
  rw [show codeWithId l.layout.chain id = codeWithId l.chain id from rfl, h] at hcode
  obtain ⟨x, hx, hflag⟩ := map_eq_some_iff.mp hcode.symm
  obtain ⟨hp, hmem⟩ := mem_of_txWithId hx
  have hid : x.info.txId = id := (lastOf_mem hx).2
  have henv := envelopeWithId_eq l.layout id
  have hblock := blockWithId_eq l.layout id
  rw [hx] at henv hblock
  refine ⟨x.placed.stored.block, ?_, x.data, ?_, henv, hblock, ?_⟩
  · rw [l.chain_eq]
    exact mem_map_of_mem hp
  · obtain ⟨k, hk⟩ := mem_iff_getElem?.mp hmem
    rw [Placed.txs, getElem?_map] at hk
    obtain ⟨y, hy, hyx⟩ := map_eq_some_iff.mp hk
    obtain ⟨hd, hrest⟩ := getElem?_zip_eq_some.mp hy
    obtain ⟨-, hf⟩ := getElem?_zip_eq_some.mp hrest
    have hdata : y.1 = x.data := congrArg PlacedTx.data hyx
    have hflag' : y.2.2 = x.flag := congrArg PlacedTx.flag hyx
    refine ⟨k, x.placed.stored.flags, by rw [hd, hdata], ?_, x.placed.stored.filter, ?_⟩
    · rw [txIdOf_data hmem, hid]
    · rw [hf, hflag', hflag]
  · obtain ⟨-, -, hdata, -⟩ := x.placed.located_txs hmem
    rw [← hid, ← txIdOf_data hmem]
    exact txIdOf_ne_clashing hdata

/-! ## Later blocks -/

/-- What was reported as valid stays so, with the envelope and the block of the transaction. -/
def StatusFinal (conf : StoreConf) (chain : List Block) : Prop :=
  ∀ i j s s' id, i ≤ j → storeAfter conf (chain.take i) = .up s →
    storeAfter conf (chain.take j) = .up s' →
    s.retrieveTxValidationCodeByTxId conf id = .ok TxValidationCode.valid.toByte →
    s'.retrieveTxValidationCodeByTxId conf id = .ok TxValidationCode.valid.toByte ∧
      ∃ b ∈ chain.take i, ∃ d, ValidIn b d id ∧
        s'.retrieveTransactionById conf id = getEnvelopeFromBlock d ∧
        s'.retrieveBlockByTxId conf id = .ok b

theorem found_eq_ok {α : Type} {o : Option α} {a : α} : found o .ok = .ok a ↔ o = some a := by
  cases o with
  | none => exact iff_of_false (by intro h; cases h) (by simp)
  | some x => exact ⟨fun h => congrArg some (Except.ok.inj h), fun h => congrArg _ (some.inj h)⟩

theorem Addable.getters (hattrs : conf.attrs = .all) (hmax : conf.maxBlockfileSize < 2 ^ 63)
    (h : Addable conf chain) {s : Store} (hs : storeAfter conf chain = .up s) :
    ∃ l : Shape, l.chain = chain ∧ ∀ id,
      s.retrieveTxValidationCodeByTxId conf id = found (codeWithId chain id) .ok ∧
      s.retrieveTransactionById conf id = found (envelopeWithId chain id) getEnvelopeFromBlock ∧
      (id ≠ clashingTxId → s.retrieveBlockByTxId conf id = found (blockWithId chain id) .ok) := by
  obtain ⟨s', hs', l, hrun, rfl, hv, hw⟩ := storeAfter_ok hattrs hmax h
  rw [hs] at hs'
  cases hs'
  have hi := hrun.indexed hv (hw.small h.short)
  refine ⟨l, rfl, fun id => ⟨?_, ?_, fun hid => ?_⟩⟩
  · rw [Store.retrieveTxValidationCodeByTxId, hattrs]
    exact validationCode_by_id hi id
  · rw [Store.retrieveTransactionById, hattrs]
    exact fetch_transaction_by_id hi id
  · rw [Store.retrieveBlockByTxId, hattrs]
    exact fetch_block_by_id hi hid

/-- The status of transactions is final exactly if a TxID whose last transaction so far is valid
does not occur in a later block. -/
theorem status_final_iff (hattrs : conf.attrs = .all) (hmax : conf.maxBlockfileSize < 2 ^ 63)
    (h : Addable conf chain) :
    StatusFinal conf chain ↔
      ∀ i id, codeWithId (chain.take i) id = some TxValidationCode.valid.toByte →
        ∀ b ∈ chain.drop i, ¬ Occurs id b := by
  constructor
  · intro hfinal i id hcode b hb hocc
    obtain ⟨m, hm⟩ := mem_iff_getElem?.mp hb
    rw [getElem?_drop] at hm
    have hlt := lt_length hm
    -- right after the later block its transaction is found
    obtain ⟨s, hs, -⟩ := storeAfter_ok hattrs hmax (h.take i)
    obtain ⟨s', hs', -⟩ := storeAfter_ok hattrs hmax (h.take (i + m + 1))
    obtain ⟨l, hl, hget⟩ := (h.take i).getters hattrs hmax hs
    obtain ⟨l', -, hget'⟩ := (h.take (i + m + 1)).getters hattrs hmax hs'
    obtain ⟨-, b', hb', d, -, -, hblock⟩ := hfinal i (i + m + 1) s s' id (by omega) hs hs'
      ((hget id).1.trans (found_eq_ok.mpr hcode))
    rw [← hl] at hcode
    obtain ⟨-, -, -, -, -, -, hid⟩ := validIn_of_code hcode
    have hlast : blockWithId (chain.take (i + m + 1)) id = some b := by
      rw [take_add_one, hm, toList_some]
      exact blockWithId_of_occurs hocc
    have hbb : b = b' := by
      have := ((hget' id).2.2 hid).symm.trans hblock
      rw [found_eq_ok, hlast] at this
      exact some.inj this
    -- two blocks of the chain have different numbers
    obtain ⟨j, hj⟩ := mem_iff_getElem?.mp hb'
    rw [getElem?_take] at hj
    split at hj
    · have hnum := h.numbered j b' hj
      rw [← hbb, h.numbered (i + m) b hm] at hnum
      have hshort := h.short
      have := ofNat_inj (by omega) (by omega) hnum
      omega
    · cases hj
  · intro hcond i j s s' id hij hs hs' hreport
    obtain ⟨l, hl, hget⟩ := (h.take i).getters hattrs hmax hs
    obtain ⟨l', -, hget'⟩ := (h.take j).getters hattrs hmax hs'
    have hcode := found_eq_ok.mp ((hget id).1.symm.trans hreport)
    have hsplit : chain.take j = chain.take i ++ (chain.drop i).take (j - i) := by
      rw [← take_add, Nat.add_sub_cancel' hij]
    obtain ⟨hsame, henv, hblock⟩ := lookups_of_not_occurs (chain.take i)
      ((chain.drop i).take (j - i)) fun b hb => hcond i id hcode b (mem_of_mem_take hb)
    rw [← hsplit] at hsame henv hblock
    refine ⟨(hget' id).1.trans (found_eq_ok.mpr (hsame.trans hcode)), ?_⟩
    rw [← hl] at hcode henv hblock ⊢
    obtain ⟨b, hb, d, hvalid, hd, hb', hid⟩ := validIn_of_code hcode
    refine ⟨b, hb, d, hvalid, ?_, ?_⟩
    · rw [(hget' id).2.1, henv, hd]
      rfl
    · exact ((hget' id).2.2 hid).trans (found_eq_ok.mpr (hblock.trans hb'))

end Chain

def twoBlocks (id id' : GoString) (flag' : UInt8) : List Block :=
  [blockOf 0 [id] TxValidationCode.valid.toByte, blockOf 1 [id'] flag']

theorem addable_of_eq {b b' : Block} (hb : Storable smallConf b) (hb' : Storable smallConf b')
    {r r' : Bytes × List TxIndexInfo} (hr : serializeBlock b = .ok r)
    (hr' : serializeBlock b' = .ok r') (hnum : b.header.number = 0) (hnum' : b'.header.number = 1) :
    Addable smallConf [b, b'] := by
  refine ⟨?_, ?_, fun i x hx => ?_, show 3 < 2 ^ 63 by norm_num⟩
  · simp only [forall_mem_cons]
    exact ⟨hb, hb', nofun⟩
  · simp only [forall_mem_cons]
    exact ⟨⟨r, hr⟩, ⟨r', hr'⟩, nofun⟩
  · match i with
    | 0 => cases hx; exact hnum
    | 1 => cases hx; exact hnum'
    | _ + 2 => cases hx

theorem status_final_distinct : StatusFinal smallConf (twoBlocks (str "t0") (str "t1") 0) := by
  have hadd : Addable smallConf (twoBlocks (str "t0") (str "t1") 0) := addable_of_eq
    (storable_of_ok rfl (by decide) rfl (by decide) (by decide) (by decide))
    (storable_of_ok rfl (by decide) rfl (by decide) (by decide) (by decide)) rfl rfl rfl rfl
  refine (status_final_iff rfl (by decide) hadd).mpr fun i id hcode b hb hocc => ?_
  match i with
  | 0 => cases hcode
  | 1 =>
    obtain rfl := mem_singleton.mp hb
    obtain ⟨d, hd, rfl⟩ := hocc
    obtain rfl := mem_singleton.mp hd
    exact absurd hcode (by decide +kernel)
  | i + 2 => simp [twoBlocks] at hb

/-- The transaction is resubmitted, flagged as a duplicate, and what was valid is reported as a
duplicate. -/
theorem duplicate_overwrites_status :
    ¬ StatusFinal smallConf (twoBlocks (str "t0") (str "t0") TxValidationCode.duplicateTxId.toByte) ∧
      ∃ s s', storeAfter smallConf [blockOf 0 [str "t0"] TxValidationCode.valid.toByte] = .up s ∧
        storeAfter smallConf (twoBlocks (str "t0") (str "t0") TxValidationCode.duplicateTxId.toByte) =
          .up s' ∧
        s.retrieveTxValidationCodeByTxId smallConf (str "t0") = .ok TxValidationCode.valid.toByte ∧
        s'.retrieveTxValidationCodeByTxId smallConf (str "t0") =
          .ok TxValidationCode.duplicateTxId.toByte := by
  have hadd : Addable smallConf
      (twoBlocks (str "t0") (str "t0") duplicateTxId.toByte) := addable_of_eq
    (storable_of_ok rfl (by decide) rfl (by decide) (by decide) (by decide))
    (storable_of_ok rfl (by decide) rfl (by decide) (by decide) (by decide)) rfl rfl rfl rfl
  obtain ⟨s, hs, -⟩ := storeAfter_ok rfl (by decide) (hadd.take 1)
  obtain ⟨s', hs', -⟩ := storeAfter_ok rfl (by decide) hadd
  obtain ⟨-, -, hget⟩ := (hadd.take 1).getters rfl (by decide) hs
  obtain ⟨-, -, hget'⟩ := hadd.getters rfl (by decide) hs'
  have hvalid : s.retrieveTxValidationCodeByTxId smallConf (str "t0") = .ok valid.toByte :=
    (hget (str "t0")).1.trans (found_eq_ok.mpr (by decide +kernel))
  have hdup : s'.retrieveTxValidationCodeByTxId smallConf (str "t0") = .ok duplicateTxId.toByte :=
    (hget' (str "t0")).1.trans (found_eq_ok.mpr (by decide +kernel))
  refine ⟨fun hfinal => ?_, s, s', hs, hs', hvalid, hdup⟩
  obtain ⟨hstays, -⟩ := hfinal 1 2 s s' (str "t0") (by decide) hs hs' hvalid
  rw [hdup] at hstays
  exact absurd hstays (by decide)

end FabricOev.BlockStore
