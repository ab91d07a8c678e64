import FabricOev.Orderer.ParallelReplay

/-!
# Schedules and the order of the block

The colouring takes the transactions in the order of their ids, so which of two
conflicting transactions comes first is decided by their ids and not by the block. One of
them is always in a strictly earlier batch; where it is always the one that comes first in
the block, the replay is the replay in block order.
-/

namespace FabricOev.Orderer

open Go Protos Ledger Bench Lib List Option StateDb

def PlacedBefore (s : BatchSchedule) (id id' : GoString) : Prop :=
  ∃ i j : Nat, i < j ∧ (∃ e, s.batches[i]? = some e ∧ id ∈ e.txIds) ∧
    ∃ e, s.batches[j]? = some e ∧ id' ∈ e.txIds

theorem pair_sublist_flatten {α : Type} {ls : List (List α)} {i j : Nat} {l l' : List α} {a b : α}
    (hij : i < j) (hi : ls[i]? = some l) (hj : ls[j]? = some l') (ha : a ∈ l) (hb : b ∈ l') :
    [a, b].Sublist ls.flatten := by
  have hl : l ∈ ls.take j := mem_iff_getElem?.mpr ⟨i, by rw [getElem?_take_of_lt hij, hi]⟩
  have hl' : l' ∈ ls.drop j := mem_iff_getElem?.mpr ⟨0, by simpa using hj⟩
  have hsub := (singleton_sublist.mpr (mem_flatten.mpr ⟨l, hl, ha⟩)).append
    (singleton_sublist.mpr (mem_flatten.mpr ⟨l', hl', hb⟩))
  rwa [singleton_append, ← flatten_append, take_append_drop] at hsub

section Order

variable {block : Block} {intents : List TxIntent} {bytes : Bytes} {s : BatchSchedule}
  (hx : extractIntentsFromBlock block.data = .ok intents)
  (hb : analyzeBatchAndSchedule block = .ok (some bytes))
  (hs : BatchSchedule.unmarshal bytes = some s) (hd : DistinctIntents intents)
  (hf : FindsOwn block.data)
include hx hb hs hd hf

theorem mem_batch_iff {t : TxIntent} (ht : t ∈ intents) (i : Nat) :
    (∃ e, s.batches[i]? = some e ∧ t.txId ∈ e.txIds) ↔
      ∃ b, (scheduleBatches intents)[i]? = some b ∧ t ∈ b := by
  have hids : (s.batches[i]?).map (·.txIds) =
      ((scheduleBatches intents)[i]?).map fun b => b.map fun t => coerceUtf8 t.txId := by
    rw [← getElem?_map, ← getElem?_map, analyzed_batches hx hb hs]
  constructor
  · rintro ⟨e, he, hmem⟩
    rw [he, map_some] at hids
    obtain ⟨b, hbi, hbe⟩ := map_eq_some_iff.mp hids.symm
    rw [← hbe] at hmem
    obtain ⟨t', ht', heq⟩ := mem_map.mp hmem
    have ht'' := mem_of_mem_scheduleBatches (mem_of_getElem? hbi) ht'
    rw [coerceUtf8_own hx hf ht''] at heq
    exact ⟨b, hbi, inj_on_of_nodup_map hd ht'' ht heq ▸ ht'⟩
  · rintro ⟨b, hbi, hmem⟩
    rw [hbi, map_some] at hids
    obtain ⟨e, he, heb⟩ := map_eq_some_iff.mp hids
    refine ⟨e, he, ?_⟩
    rw [heb]
    exact mem_map.mpr ⟨t, hmem, coerceUtf8_own hx hf ht⟩

theorem placedBefore_iff {t t' : TxIntent} (ht : t ∈ intents) (ht' : t' ∈ intents) :
    PlacedBefore s t.txId t'.txId ↔
      ∃ i j : Nat, i < j ∧ (∃ b, (scheduleBatches intents)[i]? = some b ∧ t ∈ b) ∧
        ∃ b, (scheduleBatches intents)[j]? = some b ∧ t' ∈ b := by
  simp only [PlacedBefore, mem_batch_iff hx hb hs hd hf ht, mem_batch_iff hx hb hs hd hf ht']

/-- Of two conflicting transactions one is in a strictly earlier batch. -/
theorem placedBefore_or {a b : TxIntent} (hab : [a, b].Sublist intents)
    (hc : txsConflict a b = true) :
    PlacedBefore s a.txId b.txId ∨ PlacedBefore s b.txId a.txId := by
  have ha : a ∈ intents := hab.subset (by simp)
  have hb' : b ∈ intents := hab.subset (by simp)
  rw [placedBefore_iff hx hb hs hd hf ha hb', placedBefore_iff hx hb hs hd hf hb' ha]
  have hplace : ∀ t ∈ intents, ∃ (i : Nat) (l : List TxIntent),
      (scheduleBatches intents)[i]? = some l ∧ t ∈ l := by
    intro t ht
    obtain ⟨l, hl, htl⟩ := mem_flatten.mp ((scheduleBatches_perm intents).mem_iff.mpr ht)
    obtain ⟨i, hi⟩ := mem_iff_getElem?.mp hl
    exact ⟨i, l, hi, htl⟩
  obtain ⟨i, l, hi, hal⟩ := hplace a ha
  obtain ⟨j, l', hj, hbl⟩ := hplace b hb'
  rcases lt_trichotomy i j with h | rfl | h
  · exact .inl ⟨i, j, h, ⟨l, hi, hal⟩, l', hj, hbl⟩
  · obtain rfl : l = l' := some.inj (hi.symm.trans hj)
    obtain ⟨c, hcolor⟩ := mem_scheduleBatches (mem_of_getElem? hi)
    rw [hcolor, batchOf, mem_filter, decide_eq_true_iff] at hal hbl
    exact absurd (hal.2.trans hbl.2.symm) (colorOf_ne hd hab hc)
  · exact .inr ⟨j, i, h, ⟨l', hj, hbl⟩, l, hi, hal⟩

/-- Of two conflicting transactions one is placed in a strictly earlier batch. If it is
always the one that comes first in the block, replaying the schedule is replaying the
benchmark transactions in block order. -/
theorem replaySchedule_block_order :
    (∀ a b, [a, b].Sublist intents → txsConflict a b = true →
        PlacedBefore s a.txId b.txId ∨ PlacedBefore s b.txId a.txId) ∧
      ((∀ a b, [a, b].Sublist intents → txsConflict a b = true → PlacedBefore s a.txId b.txId) →
        ∀ order db, replaySchedule order block s db = .ok (serialReplay intents
            (StateDbAdapter.new db block.header.number block.data.length))) := by
  refine ⟨fun a b hab hc => placedBefore_or hx hb hs hd hf hab hc, fun horder order db => ?_⟩
  have hids := analyzed_batches hx hb hs
  have harr : Arrangement intents s (scheduleBatches intents) := by
    have hrows : List.Forall₂ (fun ids ts => (ts.map (·.txId)).Perm ids ∧ ∀ t ∈ ts, t ∈ intents)
        (s.batches.map (·.txIds)) (scheduleBatches intents) := by
      rw [hids, forall₂_map_left_iff, forall₂_same]
      intro b hbs
      have hmem : ∀ t ∈ b, t ∈ intents := fun t ht => mem_of_mem_scheduleBatches hbs ht
      refine ⟨List.Perm.of_eq (map_congr_left fun t ht => ?_), hmem⟩
      exact (coerceUtf8_own hx hf (hmem t ht)).symm
    rwa [forall₂_map_left_iff] at hrows
  have hkeeps : Store.KeepsOrder TxIntent.footprint intents (scheduleBatches intents).flatten := by
    intro a b hab
    cases hc : txsConflict a b with
    | false => exact .inl (independent_of_not_conflict hc)
    | true =>
      have ha : a ∈ intents := hab.subset (by simp)
      have hb' : b ∈ intents := hab.subset (by simp)
      obtain ⟨i, j, hij, ⟨l, hl, hal⟩, l', hl', hbl⟩ :=
        (placedBefore_iff hx hb hs hd hf ha hb').mp (horder a b hab hc)
      exact .inr (pair_sublist_flatten hij hl hl' hal hbl)
  rw [replaySchedule_serial hx hb hs hd hf harr, serialReplay_eq]
  refine congrArg Except.ok
    (Store.serial_reorder ?_ (scheduleBatches_perm intents).symm ?_ hkeeps _).symm
  · exact fun t ht => (intents_extracted hx t ht).respects
  · exact hd.of_map

end Order

/-- A deposit and a later payment from the same account, with ids in that order. -/
theorem deposit_then_payment_block_order :
    let d := depositIntent (str "t1") (str "a") (str "5")
    let p := paymentIntent (str "t2") (str "a") (str "b") (str "12")
    let block : Block := ⟨⟨1, [], []⟩, [d.envelope, p.envelope], none⟩
    let s := { scheduleOf [[str "t1"], [str "t2"]] with blockNumber := 1 }
    replaySchedule MapOrder.sorted block s twoAccounts =
      .ok (serialReplay [d, p] (StateDbAdapter.new twoAccounts 1 2)) := by
  intro d p block s
  have hx : extractIntentsFromBlock block.data = .ok [d, p] := by decide +kernel
  have hb : analyzeBatchAndSchedule block = .ok (some s.marshal) := by decide +kernel
  refine (replaySchedule_block_order hx hb (by decide +kernel) (by decide +kernel)
    (by decide +kernel)).2 (fun x y hxy _ => ?_) MapOrder.sorted twoAccounts
  obtain ⟨rfl, rfl⟩ : x = d ∧ y = p := by
    have hpair : [x, y] = [d, p] := hxy.eq_of_length rfl
    simpa using hpair
  exact ⟨0, 1, by decide, ⟨_, rfl, by decide +kernel⟩, _, rfl, by decide +kernel⟩

/-- The block creates an account and then pays in; the ids put the deposit first, where it
fails, and the balance is 10 instead of 15. -/
theorem deposit_scheduled_before_create :
    let c := createIntent (str "t2") (str "x")
    let d := depositIntent (str "t1") (str "x") (str "5")
    let block : Block := ⟨⟨1, [], []⟩, [c.envelope, d.envelope], none⟩
    let s := { scheduleOf [[str "t1"], [str "t2"]] with blockNumber := 1 }
    let checking (a : StateDbAdapter) : Option Int64 :=
      ((sbGetAccount (a.getState ccSmallBank) (str "x")).toOption).map (·.checking)
    extractIntentsFromBlock block.data = .ok [c, d] ∧ txsConflict c d = true ∧
      DistinctIntents [c, d] ∧ FindsOwn block.data ∧
      analyzeBatchAndSchedule block = .ok (some s.marshal) ∧
      BatchSchedule.unmarshal s.marshal = some s ∧
      (replaySchedule MapOrder.sorted block s empty).map checking = .ok (some 10) ∧
      checking (serialReplay [c, d] (StateDbAdapter.new empty 1 2)) = some 15 := by
  decide +kernel

end FabricOev.Orderer
