import FabricOev.Bench.Replay

/-!
# What the replay engines read and write

One equation per function name, and for each shape of operation the keys its answer
depends on and the keys it writes.
-/

namespace FabricOev.Bench

open Go Result Except

section Dispatch

variable (db : View) (args : List GoString)

theorem smallBank_depositChecking :
    replaySmallBank db (str "DepositChecking") args = sbReplayDepositChecking db args := if_pos rfl

theorem smallBank_transactSavings :
    replaySmallBank db (str "TransactSavings") args = sbReplayTransactSavings db args := by
  simp [replaySmallBank, str_inj]

theorem smallBank_writeCheck :
    replaySmallBank db (str "WriteCheck") args = sbReplayWriteCheck db args := by
  simp [replaySmallBank, str_inj]

theorem smallBank_amalgamate :
    replaySmallBank db (str "Amalgamate") args = sbReplayAmalgamate db args := by
  simp [replaySmallBank, str_inj]

theorem smallBank_sendPayment :
    replaySmallBank db (str "SendPayment") args = sbReplaySendPayment db args := by
  simp [replaySmallBank, str_inj]

theorem smallBank_createAccount :
    replaySmallBank db (str "CreateAccount") args = sbReplayCreateAccount args := by
  simp [replaySmallBank, str_inj]

theorem smallBank_balance : replaySmallBank db (str "Balance") args = .ok ∅ := by
  simp [replaySmallBank, str_inj]

theorem replayYcsb_read : replayYcsb (str "Read") args = .ok ∅ := by simp [replayYcsb, str_inj]

theorem replayYcsb_scan : replayYcsb (str "Scan") args = .ok ∅ := by simp [replayYcsb, str_inj]

end Dispatch

section Reads

variable {db db' : View}

theorem sbGetAccount_congr {id : GoString} (h : db (sbKey id) = db' (sbKey id)) :
    sbGetAccount db id = sbGetAccount db' id := by
  rw [sbGetAccount, sbGetAccount, h]

variable {rest : List GoString} {name : String}

theorem sbReplayOne_congr {f : AccountRecord → Int64 → Except GoError AccountRecord}
    {id amount : GoString} (h : db (sbKey id) = db' (sbKey id)) :
    sbReplayOne name f db (id :: amount :: rest) = sbReplayOne name f db' (id :: amount :: rest) := by
  simp only [sbReplayOne, sbGetAccount_congr h]

variable {f : AccountRecord → AccountRecord → Except GoError (AccountRecord × AccountRecord)}

theorem sbReplayTwo_congr {src dst : GoString} (hs : db (sbKey src) = db' (sbKey src))
    (hd : db (sbKey dst) = db' (sbKey dst)) :
    sbReplayTwo f db src dst = sbReplayTwo f db' src dst := by
  simp only [sbReplayTwo, sbGetAccount_congr hs, sbGetAccount_congr hd]

end Reads

variable {ws : WriteMap}

/-- A successful operation on one account: what it found and what it writes. -/
theorem sbReplayOne_ok {f : AccountRecord → Int64 → Except GoError AccountRecord} {db : View}
    {id amountArg : GoString} :
    sbReplayOne name f db (id :: amountArg :: rest) = .ok ws ↔
      ∃ amount acc acc', parseAmount amountArg = .ok amount ∧ sbGetAccount db id = .ok acc ∧
        f acc amount = .ok acc' ∧ (∅ : WriteMap).insert (sbKey id) acc'.marshal = ws := by
  simp only [sbReplayOne, bind_ok, ok.injEq]
  constructor
  · rintro ⟨amount, ha, acc, hacc, acc', hf, rfl⟩
    exact ⟨amount, acc, acc', ha, hacc, hf, rfl⟩
  · rintro ⟨amount, acc, acc', ha, hacc, hf, rfl⟩
    exact ⟨amount, ha, acc, hacc, acc', hf, rfl⟩

theorem sbReplayTwo_ok {db : View} {srcId dstId : GoString} :
    sbReplayTwo f db srcId dstId = .ok ws ↔
      ∃ src dst src' dst', sbGetAccount db srcId = .ok src ∧ sbGetAccount db dstId = .ok dst ∧
        f src dst = .ok (src', dst') ∧
        ((∅ : WriteMap).insert (sbKey srcId) src'.marshal).insert (sbKey dstId) dst'.marshal = ws := by
  simp only [sbReplayTwo, bind_ok, ok.injEq]
  constructor
  · rintro ⟨src, hs, dst, hd, ⟨src', dst'⟩, hf, rfl⟩
    exact ⟨src, dst, src', dst', hs, hd, hf, rfl⟩
  · rintro ⟨src, dst, src', dst', hs, hd, hf, rfl⟩
    exact ⟨src, hs, dst, hd, (src', dst'), hf, rfl⟩

theorem mem_insert_empty {k k' : GoString} {v : Bytes}
    (h : k ∈ (∅ : WriteMap).insert k' v) : k = k' := by
  have h' : k' = k := by simpa using h
  exact h'.symm

theorem mem_insert_insert {k k1 k2 : GoString} {v1 v2 : Bytes}
    (h : k ∈ ((∅ : WriteMap).insert k1 v1).insert k2 v2) : k = k1 ∨ k = k2 := by
  have h' : k2 = k ∨ k1 = k := by simpa using h
  rcases h' with rfl | rfl
  · exact .inr rfl
  · exact .inl rfl

end FabricOev.Bench
