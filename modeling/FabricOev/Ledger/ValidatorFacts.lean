import FabricOev.Ledger.StateValidator

/-!
# What validation does to flags and batch

One lemma says everything that validating one transaction can do; the facts about a
whole block follow from it by induction along the transactions.
-/

namespace FabricOev.Ledger

open Go Protos TxFlags Result UInt64 List HeaderType

variable {hash : Bytes → Bytes} {db : StateDb} {number : UInt64} {mvcc : Bool} {i : Nat}
  {flags : TxFlags} {code : TxValidationCode} {data : Bytes} {st st' : TxFlags × UpdateBatch}
  {chdr : ChannelHeader} {j : Nat}

theorem TxFlags.isValid_eq_ok {b : Bool} (h : flags.isValid i = .ok b) :
    b = true ↔ FlaggedValid flags i := by
  obtain ⟨c, hc, hb⟩ := bind_ok.mp h
  rw [index_eq_ok] at hc
  cases hb
  simp [FlaggedValid, hc]

theorem TxFlags.isValid_eq (f : TxFlags) (i : Nat) :
    f.isValid i = if i < f.length then .ok (decide (FlaggedValid f i))
      else panicWith .indexOutOfRange := by
  unfold isValid index
  by_cases hi : i < f.length
  · simp [FlaggedValid, hi, bind, Except.bind]
  · rw [if_neg hi, getElem?_eq_none (by omega)]
    rfl

theorem toByte_ne_valid (h : code ≠ .valid) : code.toByte ≠ TxValidationCode.valid.toByte := by
  cases code <;> first | exact absurd rfl h | decide

/-- The endorsed read-write set of an envelope. -/
def EndorsedRwSet (data : Bytes) (rw : TxRwSet) : Prop :=
  ∃ action, getActionFromEnvelope data = .ok action ∧
    TxRwSet.fromProtoBytes action.results = some rw

theorem endorserTx_cases {updates : UpdateBatch} {rw : Option TxRwSet}
    (h : validateEndorserTx hash db data mvcc updates = .ok (rw, code)) :
    (rw = none ∧ code ≠ .valid) ∨ ∃ s, rw = some s ∧ code = .valid ∧ EndorsedRwSet data s ∧
        (mvcc = true → validateTx hash db updates s = .ok .valid) := by
  obtain ⟨action, hatt, h⟩ := bind_ok.mp h
  rcases attempt_eq_ok hatt with ⟨act, hact, rfl⟩ | ⟨e, -, rfl⟩
  · cases hrw : TxRwSet.fromProtoBytes act.results with
    | none =>
      simp only [hrw] at h
      cases h
      exact .inl ⟨rfl, by decide⟩
    | some s =>
      simp only [hrw] at h
      split at h
      · obtain ⟨c, hc, h⟩ := bind_ok.mp h
        split at h
        · rename_i hv
          cases h
          exact .inr ⟨s, rfl, rfl, ⟨act, hact, hrw⟩, fun _ => hv ▸ hc⟩
        · rename_i hv
          cases h
          exact .inl ⟨rfl, hv⟩
      · rename_i hm
        cases h
        exact .inr ⟨s, rfl, rfl, ⟨act, hact, hrw⟩, fun h => absurd h hm⟩
  · cases h
    exact .inl ⟨rfl, by decide⟩

/-- What validating one transaction can do. -/
inductive StepCase (hash : Bytes → Bytes) (db : StateDb) (number : UInt64) (mvcc : Bool)
    (st : TxFlags × UpdateBatch) (i : Nat) (data : Bytes) : TxFlags × UpdateBatch → Prop
  /-- It came in invalid. -/
  | skipped (h : ¬ FlaggedValid st.1 i) : StepCase hash db number mvcc st i data st
  /-- It is not an endorser transaction. -/
  | other {chdr : ChannelHeader} (hv : FlaggedValid st.1 i) (hc : channelHeaderOf data = .ok chdr)
      (ht : chdr.headerType ≠ endorserTransaction) :
      StepCase hash db number mvcc st i data st
  | rejected {chdr : ChannelHeader} {code : TxValidationCode} (hv : FlaggedValid st.1 i)
      (hc : channelHeaderOf data = .ok chdr)
      (ht : chdr.headerType = endorserTransaction) (hne : code ≠ .valid) :
      StepCase hash db number mvcc st i data (st.1.set i code.toByte, st.2)
  | accepted {chdr : ChannelHeader} {rw : TxRwSet} {updates : UpdateBatch}
      (hv : FlaggedValid st.1 i) (hc : channelHeaderOf data = .ok chdr)
      (ht : chdr.headerType = endorserTransaction) (hrw : EndorsedRwSet data rw)
      (hm : mvcc = true → validateTx hash db st.2 rw = .ok .valid)
      (hu : addWriteSetToBatch rw ⟨number, ofNat i⟩ st.2 = .ok updates) :
      StepCase hash db number mvcc st i data (st.1, updates)

theorem FlaggedValid.lt (h : FlaggedValid flags i) :
    i < flags.length := lt_length h

theorem FlaggedValid.set_self (h : FlaggedValid flags i) :
    flags.set i TxValidationCode.valid.toByte = flags := by
  obtain ⟨hi, he⟩ := List.getElem?_eq_some_iff.mp h
  rw [← he]
  exact set_getElem_self hi

theorem validateOne_cases (h : validateOne hash db number mvcc st i data = .ok st') :
    StepCase hash db number mvcc st i data st' := by
  obtain ⟨flags, updates⟩ := st
  obtain ⟨b, hb, h⟩ := bind_ok.mp h
  have hvalid := isValid_eq_ok hb
  cases b with
  | false =>
    cases h
    exact .skipped fun hv => absurd (hvalid.mpr hv) (by decide)
  | true =>
    have hv := hvalid.mp rfl
    obtain ⟨chdr, hc, h⟩ := bind_ok.mp h
    split at h
    · rename_i ht
      cases h
      exact .other hv hc ht
    · rename_i ht
      obtain ⟨⟨rw, code⟩, hval, h⟩ := bind_ok.mp h
      obtain ⟨flags', hset, h⟩ := bind_ok.mp h
      obtain ⟨-, rfl⟩ := setFlag_eq_ok.mp hset
      rcases endorserTx_cases hval with ⟨rfl, hne⟩ | ⟨s, rfl, rfl, hrw, hm⟩
      · cases h
        exact .rejected hv hc (not_not.mp ht) hne
      · obtain ⟨updates', hu, h⟩ := bind_ok.mp h
        cases h
        rw [hv.set_self]
        exact .accepted hv hc (not_not.mp ht) hrw hm hu

theorem validateOne_of_invalid (hi : i < st.1.length) (hv : ¬ FlaggedValid st.1 i) (data : Bytes) :
    validateOne hash db number mvcc st i data = .ok st := by
  obtain ⟨flags, updates⟩ := st
  have hflag : flags.isValid i = .ok false := by rw [isValid_eq, if_pos hi, decide_eq_false hv]
  rw [validateOne]
  rw [hflag]
  rfl

theorem validateOne_of_other (hv : FlaggedValid st.1 i) (hc : channelHeaderOf data = .ok chdr)
    (ht : chdr.headerType ≠ endorserTransaction) :
    validateOne hash db number mvcc st i data = .ok st := by
  obtain ⟨flags, updates⟩ := st
  have hflag : flags.isValid i = .ok true := by rw [isValid_eq, if_pos hv.lt, decide_eq_true hv]
  rw [validateOne]
  rw [hflag]
  rw [hc]
  exact if_pos ht

theorem validateOne_lt (h : validateOne hash db number mvcc st i data = .ok st') :
    i < st.1.length := by
  obtain ⟨flags, updates⟩ := st
  obtain ⟨b, hb, -⟩ := bind_ok.mp h
  rw [isValid_eq] at hb
  split at hb
  · assumption
  · cases hb

/-- Validating an endorser transaction that was flagged valid and decodes. -/
theorem validateOne_of_endorsed {rw : TxRwSet} (hv : FlaggedValid st.1 i)
    (hc : channelHeaderOf data = .ok chdr) (ht : chdr.headerType = endorserTransaction)
    (hrw : EndorsedRwSet data rw) :
    validateOne hash db number mvcc st i data =
      (if mvcc then validateTx hash db st.2 rw else .ok .valid) >>= fun code =>
        if code = .valid then
          addWriteSetToBatch rw ⟨number, ofNat i⟩ st.2 >>= fun updates => .ok (st.1, updates)
        else .ok (st.1.set i code.toByte, st.2) := by
  obtain ⟨flags, updates⟩ := st
  obtain ⟨action, haction, hrw⟩ := hrw
  have hi : i < flags.length := hv.lt
  have hset : ∀ code, setFlag flags i code = .ok (flags.set i code.toByte) := fun code => if_pos hi
  have hflag : flags.isValid i = .ok true := by rw [isValid_eq, if_pos hi, decide_eq_true hv]
  have hendorser : validateEndorserTx hash db data mvcc updates =
      (if mvcc then validateTx hash db updates rw else .ok .valid) >>= fun code =>
        .ok (if code = .valid then (some rw, .valid) else (none, code)) := by
    rw [validateEndorserTx, haction, attempt, ok_bind]
    dsimp only
    rw [hrw]
    cases mvcc with
    | false => rfl
    | true =>
      refine bind_congr fun code => ?_
      split
      · rfl
      · rfl
  rw [validateOne]
  rw [hflag]
  rw [hc]
  show (if chdr.headerType ≠ endorserTransaction then _ else _) = _
  rw [if_neg (not_not.mpr ht), hendorser, bind_assoc]
  refine bind_congr fun code => ?_
  split
  · show ((flags.setFlag i .valid) >>= _) = _
    rw [hset, hv.set_self]
    rfl
  · show ((flags.setFlag i code) >>= _) = _
    rw [hset]
    rfl

variable (h : StepCase hash db number mvcc st i data st')
include h

theorem StepCase.length : st'.1.length = st.1.length := by
  cases h <;> simp

theorem StepCase.flag_ne (hj : i ≠ j) : st'.1[j]? = st.1[j]? := by
  cases h with
  | rejected => exact getElem?_set_ne hj
  | _ => rfl

theorem StepCase.flag_invalid (hj : ¬ FlaggedValid st.1 j) : st'.1[j]? = st.1[j]? := by
  by_cases hij : i = j
  · subst hij
    cases h with
    | skipped => rfl
    | other hv | rejected hv | accepted hv => exact absurd hv hj
  · exact h.flag_ne hij

omit h

theorem validateLoop_flags {ds : List Bytes}
    (h : validateLoop hash db number mvcc i ds st = .ok st') :
    st'.1.length = st.1.length ∧ (∀ j, ¬ FlaggedValid st.1 j → st'.1[j]? = st.1[j]?) ∧
      ∀ j, j < i → st'.1[j]? = st.1[j]? := by
  induction ds generalizing i st with
  | nil =>
    cases h
    exact ⟨rfl, fun _ _ => rfl, fun _ _ => rfl⟩
  | cons d ds ih =>
    obtain ⟨mid, hone, hrest⟩ := bind_ok.mp h
    have hc := validateOne_cases hone
    obtain ⟨hlen, hinv, hlow⟩ := ih hrest
    refine ⟨hlen.trans hc.length, fun j hj => ?_, fun j hj => ?_⟩
    · have hmid := hc.flag_invalid hj
      rw [hinv j (by rwa [FlaggedValid, hmid]), hmid]
    · rw [hlow j (by omega), hc.flag_ne (by omega)]

end FabricOev.Ledger
