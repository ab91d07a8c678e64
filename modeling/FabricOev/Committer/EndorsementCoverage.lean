import FabricOev.Committer.TxValidator
import FabricOev.Ledger.CommitSteps

/-!
# Endorsement policies and replayed effects

What a transaction flagged valid has been through, and whether the policy of the
namespace its replay writes to was evaluated on it. Validation follows the endorsed
read-write set and replay follows the arguments in the proposal; nothing compares them.
The policy has been evaluated exactly if the endorsed set writes to that namespace too.
-/

namespace FabricOev.Committer

open Go Protos Ledger Bench Result Option Except List Wire HeaderType

variable {σ : Type} {sup : Support σ} {st : σ} {l : KvLedger} {db : StateDb}
  {chId ccId ccVer : GoString} {envBytes : Bytes} {cs : List PolicyCheck} {rw : TxRwSet}
  {payload : Payload} {code : TxValidationCode} {d : Bytes} {out : TxOutcome} {st' : σ} {i : Nat}
  {flags flags' : TxFlags} {es : List (Nat × ChaincodeInstance)} {final : List (GoString × Nat)}
  {ns : GoString}

/-! ## What the validator evaluated -/

/-- A valid verdict means that every namespace has been looked up and accepted. -/
theorem namespaces_valid {nss : List GoString}
    (h : validateNamespaces sup st db chId ccId ccVer envBytes nss = (.valid, cs)) :
    cs.map (·.ns) = nss ∧
      ∀ c ∈ cs, c.accepted = true ∧ getInfoForValidate sup st db chId c.ns = some c.info := by
  induction nss generalizing cs with
  | nil =>
    cases h
    exact ⟨rfl, by simp⟩
  | cons ns nss ih =>
    rw [validateNamespaces] at h
    cases hi : getInfoForValidate sup st db chId ns with
    | none => simp [hi] at h
    | some info =>
      simp only [hi] at h
      split at h
      · simp at h
      · split at h
        · rename_i hacc
          obtain ⟨hcode, rfl⟩ := Prod.mk.inj h
          obtain ⟨hns, hall⟩ := ih (Prod.ext hcode rfl)
          constructor
          · rw [map_cons, hns]
            rfl
          · intro c hc
            rcases mem_cons.mp hc with rfl | hc
            · exact ⟨hacc, hi⟩
            · exact hall c hc
        · simp at h

theorem validateWrites_app (hcc : isSysCc ccId = false)
    (h : validateWrites sup st db chId ccId ccVer envBytes rw = (.valid, cs)) :
    validateNamespaces sup st db chId ccId ccVer envBytes (wrNamespaces rw) = (.valid, cs) := by
  simp only [validateWrites, hcc, Bool.not_false, if_true] at h
  split at h
  · simp at h
  · split at h
    · simp at h
    · exact h

theorem mem_wrNamespaces : ns ∈ wrNamespaces rw ↔ ∃ s ∈ rw, s.ns = ns ∧ s.writes ≠ [] := by
  simp only [wrNamespaces, List.mem_map, List.mem_filter, decide_eq_true_eq]
  constructor
  · rintro ⟨s, ⟨hs, hw⟩, hns⟩
    exact ⟨s, hs, hns, hw⟩
  · rintro ⟨s, hs, hns, hw⟩
    exact ⟨s, ⟨hs, hw⟩, hns⟩

theorem vsccValidateTx_valid (h : vsccValidateTx sup st db payload envBytes = .ok (.valid, cs)) :
    ∃ hdrExt ccId ccVer chId rw,
      getChaincodeHeaderExtension payload.header = .ok hdrExt ∧ hdrExt.chaincodeId = some ccId ∧
      EndorsedRwSet envBytes rw ∧
      validateWrites sup st db chId ccId.name ccVer envBytes rw = (.valid, cs) := by
  obtain ⟨r1, h1, h⟩ := bind_ok.mp h
  rcases attempt_eq_ok h1 with ⟨hdrExt, hext, rfl⟩ | ⟨e, -, rfl⟩
  swap
  · simp at h
  obtain ⟨hdr, -, h⟩ := bind_ok.mp h
  obtain ⟨r2, h2, h⟩ := bind_ok.mp h
  rcases attempt_eq_ok h2 with ⟨chdr, -, rfl⟩ | ⟨e, -, rfl⟩
  swap
  · simp at h
  obtain ⟨r3, h3, h⟩ := bind_ok.mp h
  rcases attempt_eq_ok h3 with ⟨resp, hresp, rfl⟩ | ⟨e, -, rfl⟩
  swap
  · simp at h
  cases hrw : TxRwSet.fromProtoBytes resp.results with
  | none => simp [hrw] at h
  | some rw =>
    simp only [hrw] at h
    obtain ⟨ccId, hcc, h⟩ := bind_ok.mp h
    obtain ⟨respCc, -, h⟩ := bind_ok.mp h
    split at h
    · simp at h
    · have hw := ok.inj h
      refine ⟨hdrExt, ccId, _, _, rw, hext, ?_, ⟨resp, hresp, hrw⟩, hw⟩
      cases hc : hdrExt.chaincodeId with
      | none => simp [hc, deref, panicWith] at hcc
      | some c =>
        rw [hc] at hcc
        exact congrArg some (ok.inj hcc)

theorem validateTx_payload {hash : Bytes → Bytes}
    {verify : GoString → Bytes → Bytes → Bytes → Bool} {env : Envelope}
    (h : validateTransaction hash verify env = .ok (some payload, code)) :
    getPayload env = .ok payload := by
  unfold validateTransaction at h
  split at h
  · simp at h
  · rename_i p hp
    have hget : getPayload env = .ok p := ofOption_eq_ok.mpr hp
    split at h
    · simp at h
    · split at h
      · split at h
        · split at h
          · obtain ⟨hdr, -, h⟩ := bind_ok.mp h
            obtain ⟨ok, -, h⟩ := bind_ok.mp h
            cases h
            exact hget
          · simp at h
        · split at h
          · cases h
            exact hget
          · simp at h
      · simp at h

theorem endorserTx_valid {txId : GoString}
    (h : validateEndorserTx sup st l payload txId d = .ok out) (hcode : out.code = .valid) :
    vsccValidateTx sup st l.stateDb payload d = .ok (.valid, out.checks) := by
  unfold validateEndorserTx at h
  split at h
  · cases h
    simp [TxOutcome.rejected] at hcode
  · obtain ⟨⟨code, cs⟩, hvscc, h⟩ := bind_ok.mp h
    simp only at h
    split at h
    · rename_i hv
      obtain ⟨r, hr, h⟩ := bind_ok.mp h
      rcases attempt_eq_ok hr with ⟨ins, -, rfl⟩ | ⟨e, -, rfl⟩
      · cases h
        rw [hvscc, hv]
      · cases h
        simp [TxOutcome.rejected] at hcode
    · rename_i hv
      cases h
      exact absurd hcode hv

/-- Found valid by `VSCCValidateTx`, or of a type for which no policy is evaluated. -/
theorem validateTx_valid (h : validateTx sup st l d = .ok (st', out)) (hcode : out.code = .valid) :
    ∃ env payload hdr chdr, getEnvelopeFromBlock d = .ok env ∧ getPayload env = .ok payload ∧
      payload.header = some hdr ∧ unmarshalChannelHeader hdr.channelHeader = .ok chdr ∧
      ((chdr.headerType = endorserTransaction ∧
          vsccValidateTx sup st l.stateDb payload d = .ok (.valid, out.checks)) ∨
        (chdr.headerType ≠ endorserTransaction ∧ out.checks = [])) := by
  obtain ⟨r1, h1, h⟩ := bind_ok.mp h
  rcases attempt_eq_ok h1 with ⟨env, henv, rfl⟩ | ⟨e, -, rfl⟩
  swap
  · cases h
    simp [TxOutcome.rejected] at hcode
  obtain ⟨⟨p, code⟩, hval, h⟩ := bind_ok.mp h
  by_cases hc : code = .valid
  swap
  · simp only [hc, ne_eq, not_false_eq_true, if_true] at h
    cases h
    exact absurd hcode hc
  simp only [hc, ne_eq, not_true_eq_false, if_false] at h
  obtain ⟨payload, hpay, h⟩ := bind_ok.mp h
  obtain ⟨hdr, hhdr, h⟩ := bind_ok.mp h
  obtain ⟨r2, h2, h⟩ := bind_ok.mp h
  rcases attempt_eq_ok h2 with ⟨chdr, hchdr, rfl⟩ | ⟨e, -, rfl⟩
  swap
  · cases h
    simp [TxOutcome.rejected] at hcode
  have hget := validateTx_payload (deref_eq_ok hpay ▸ hval)
  refine ⟨env, payload, hdr, chdr, henv, hget, deref_eq_ok hhdr, hchdr, ?_⟩
  simp only at h
  split at h
  · rename_i ht
    obtain ⟨out', hout, h⟩ := bind_ok.mp h
    cases h
    exact .inl ⟨ht, endorserTx_valid hout hcode⟩
  · rename_i ht
    split at h
    · split at h
      · simp [errorf, fail] at h
      · cases h
        exact .inr ⟨ht, rfl⟩
    · cases h
      simp [TxOutcome.rejected] at hcode

theorem validateTxs_get {ds : List Bytes} {outs : List TxOutcome}
    (h : validateTxs sup l st ds = .ok (st', outs)) (hi : outs[i]? = some out) :
    ∃ d st1 st2, ds[i]? = some d ∧ validateTx sup st1 l d = .ok (st2, out) := by
  induction ds generalizing st outs i with
  | nil =>
    cases h
    simp at hi
  | cons d ds ih =>
    obtain ⟨⟨st1, o⟩, hone, h⟩ := bind_ok.mp h
    obtain ⟨⟨st2, os⟩, hrest, h⟩ := bind_ok.mp h
    cases h
    cases i with
    | zero =>
      cases hi
      exact ⟨d, st, st1, rfl, hone⟩
    | succ i => exact ih hrest hi

theorem setFlag_invalid {j : Nat} (h : flags.setFlag j code = .ok flags')
    (hcode : code.toByte ≠ TxValidationCode.valid.toByte) (hi : FlaggedValid flags' i) :
    FlaggedValid flags i := by
  obtain ⟨hj, rfl⟩ := TxFlags.setFlag_eq_ok.mp h
  by_cases hij : j = i
  · subst hij
    rw [FlaggedValid, getElem?_set_self hj] at hi
    exact absurd (some.inj hi) hcode
  · rwa [FlaggedValid, getElem?_set_ne hij] at hi

theorem upgradeLoop_flags {final' : List (GoString × Nat)}
    (h : upgradeLoop es final flags = .ok (final', flags')) (hi : FlaggedValid flags' i) :
    FlaggedValid flags i := by
  induction es generalizing final flags with
  | nil =>
    cases h
    exact hi
  | cons e es ih =>
    rw [upgradeLoop] at h
    split at h
    · exact ih h
    · split at h
      · obtain ⟨mid, hset, h⟩ := bind_ok.mp h
        exact setFlag_invalid hset (by decide) (ih h)
      · obtain ⟨mid, hset, h⟩ := bind_ok.mp h
        exact setFlag_invalid hset (by decide) (ih h)

theorem invokeLoop_flags (h : invokeLoop final es flags = .ok flags') (hi : FlaggedValid flags' i) :
    FlaggedValid flags i := by
  induction es generalizing flags with
  | nil =>
    cases h
    exact hi
  | cons e es ih =>
    rw [invokeLoop] at h
    split at h
    · obtain ⟨b, -, h⟩ := bind_ok.mp h
      split at h
      · obtain ⟨mid, hset, h⟩ := bind_ok.mp h
        exact setFlag_invalid hset (by decide) (ih h)
      · exact ih h
    · exact ih h

theorem invalidTxs_flags {names upgrades : List (Nat × ChaincodeInstance)}
    (h : invalidTxsForUpgradeCc names upgrades flags = .ok flags') (hi : FlaggedValid flags' i) :
    FlaggedValid flags i := by
  unfold invalidTxsForUpgradeCc at h
  split at h
  · cases h
    exact hi
  · obtain ⟨⟨final, mid⟩, hup, h⟩ := bind_ok.mp h
    exact upgradeLoop_flags hup (invokeLoop_flags h hi)

theorem toByte_valid (h : code.toByte = TxValidationCode.valid.toByte) : code = .valid := by
  cases code <;> first | rfl | exact absurd h (by decide)

/-- What a transaction flagged valid by `Validate` has been through. -/
theorem validate_valid {order : IndexOrder} {block : Block} {v : Validated σ}
    (h : validate sup order st l block = .ok v) (hi : FlaggedValid v.flags i) :
    ∃ d st1 st2 out, block.data[i]? = some d ∧ validateTx sup st1 l d = .ok (st2, out) ∧
      out.code = .valid ∧ v.checks[i]? = some out.checks := by
  obtain ⟨⟨st', outs⟩, htxs, h⟩ := bind_ok.mp h
  obtain ⟨flags, hflags, h⟩ := bind_ok.mp h
  cases h
  have hcode := invalidTxs_flags hflags hi
  rw [FlaggedValid, getElem?_map, map_eq_some_iff] at hcode
  obtain ⟨out, hout, hb⟩ := hcode
  obtain ⟨d, st1, st2, hd, hval⟩ := validateTxs_get htxs hout
  exact ⟨d, st1, st2, out, hd, hval, toByte_valid hb, by simp [hout]⟩

/-- The policy LSCC has for a namespace was evaluated on transaction `i` and accepted it. -/
def PolicyAccepted (db : StateDb) (v : Validated σ) (i : Nat) (ns : GoString) : Prop :=
  ∃ cs c cd, v.checks[i]? = some cs ∧ c ∈ cs ∧ c.ns = ns ∧ c.accepted = true ∧
    getCDataForCc db ns = some cd ∧ c.info = ⟨cd.version, cd.vscc, cd.policy⟩

/-- Transaction `i` is an endorser transaction whose endorsed read-write set writes to a
namespace. -/
def EndorsedWrite (block : Block) (i : Nat) (ns : GoString) : Prop :=
  ∃ d chdr rw, block.data[i]? = some d ∧ channelHeaderOf d = .ok chdr ∧
    chdr.headerType = endorserTransaction ∧ EndorsedRwSet d rw ∧
    ∃ s ∈ rw, s.ns = ns ∧ s.writes ≠ []

theorem benchmark_not_system (h : ns = ccSmallBank ∨ ns = ccYcsb) :
    isSysCc ns = false ∧ ns ≠ lscc := by
  rcases h with rfl | rfl
  · decide +kernel
  · decide +kernel

theorem invocation_ccName {inv : Invocation}
    (h : extractInvocationFromEnvBytes d = .ok inv) :
    ∃ env payload hdrExt ccId, getEnvelopeFromBlock d = .ok env ∧ getPayload env = .ok payload ∧
      getChaincodeHeaderExtension payload.header = .ok hdrExt ∧ hdrExt.chaincodeId = some ccId ∧
      ccId.name = inv.ccName := by
  obtain ⟨env, henv, h⟩ := bind_ok.mp h
  obtain ⟨payload, hpay, h⟩ := bind_ok.mp h
  obtain ⟨hdrExt, hext, h⟩ := bind_ok.mp h
  obtain ⟨ccId, hcc, h⟩ := bind_ok.mp h
  refine ⟨env, payload, hdrExt, ccId, henv, hpay, hext, deref_eq_ok hcc, ?_⟩
  obtain ⟨tx, -, h⟩ := bind_ok.mp h
  split at h
  · simp [errorf, fail] at h
  · obtain ⟨cap, -, h⟩ := bind_ok.mp h
    obtain ⟨cpp, -, h⟩ := bind_ok.mp h
    obtain ⟨cis, -, h⟩ := bind_ok.mp h
    obtain ⟨spec, -, h⟩ := bind_ok.mp h
    obtain ⟨input, -, h⟩ := bind_ok.mp h
    split at h
    · simp [errorf, fail] at h
    · cases h
      rfl

/-- A transaction flagged valid and replayed with writes: the policy of the namespace it
writes to was evaluated and accepted it exactly if its endorsed read-write set writes to
that namespace as well. -/
theorem replay_policy_accepted_iff {vorder : IndexOrder} {order : MapOrder} {block : Block}
    {v : Validated σ} {s : BatchSchedule} {i : Nat} {inv : Invocation} {ws : WriteMap}
    (hv : validate sup vorder st l block = .ok v) (hi : FlaggedValid v.flags i)
    (hr : ReplayedAt order v.block s l.stateDb i inv ws) :
    ((∃ key, key ∈ ws) → PolicyAccepted l.stateDb v i inv.ccName) ↔
      ((∃ key, key ∈ ws) → EndorsedWrite block i inv.ccName) := by
  obtain ⟨d, st1, st2, out, hd, hval, hcode, hchecks⟩ := validate_valid hv hi
  have hdata : v.block.data = block.data := by
    obtain ⟨_, -, hv⟩ := bind_ok.mp hv
    obtain ⟨_, -, hv⟩ := bind_ok.mp hv
    cases hv
    rfl
  obtain ⟨e, a, id, d', -, -, -, hd', -, hinv, hreplay⟩ := hr
  obtain rfl : d = d' := some.inj (hd.symm.trans (hdata ▸ hd'))
  obtain ⟨hsys, hlscc⟩ := benchmark_not_system (Invocation.replay_ccName hreplay)
  obtain ⟨env, payload, hdr, chdr, henv, hpay, hhdr, hchdr, hcases⟩ := validateTx_valid hval hcode
  have hch : channelHeaderOf d = .ok chdr := by
    simp only [channelHeaderOf, henv, hpay, hhdr, bind, Except.bind, deref]
    exact hchdr
  refine imp_congr_right fun _ => ?_
  rcases hcases with ⟨ht, hvscc⟩ | ⟨ht, hnone⟩
  · obtain ⟨hdrExt, ccId, ccVer, chId, rw, hext, hcc, hrw, hwrites⟩ := vsccValidateTx_valid hvscc
    obtain ⟨env', payload', hdrExt', ccId', henv', hpay', hext', hcc', hname⟩ :=
      invocation_ccName hinv
    obtain rfl := ok.inj (henv.symm.trans henv')
    obtain rfl := ok.inj (hpay.symm.trans hpay')
    obtain rfl := ok.inj (hext.symm.trans hext')
    obtain rfl := some.inj (hcc.symm.trans hcc')
    rw [hname] at hwrites
    obtain ⟨hns, hall⟩ := namespaces_valid (validateWrites_app hsys hwrites)
    constructor
    · rintro ⟨cs, c, cd, hcs, hc, hcns, -, -, -⟩
      obtain rfl := some.inj (hchecks.symm.trans hcs)
      have hmem : inv.ccName ∈ wrNamespaces rw := by
        rw [← hns, ← hcns]
        exact mem_map_of_mem hc
      exact ⟨d, chdr, rw, hd, hch, ht, hrw, mem_wrNamespaces.mp hmem⟩
    · rintro ⟨d', chdr', rw', hd', -, -, hrw', hw⟩
      obtain rfl : d = d' := some.inj (hd.symm.trans hd')
      obtain ⟨act, hact, hset⟩ := hrw
      obtain ⟨act', hact', hset'⟩ := hrw'
      obtain rfl := ok.inj (hact.symm.trans hact')
      obtain rfl := some.inj (hset.symm.trans hset')
      have hmem := mem_wrNamespaces.mpr hw
      rw [← hns] at hmem
      obtain ⟨c, hc, hcns⟩ := mem_map.mp hmem
      obtain ⟨hacc, hinfo⟩ := hall c hc
      rw [hcns, getInfoForValidate, if_pos hlscc, map_eq_some_iff] at hinfo
      obtain ⟨cd, hcd, hinfo⟩ := hinfo
      exact ⟨out.checks, c, cd, hchecks, hc, hcns, hacc, hcd, hinfo.symm⟩
  · constructor
    · rintro ⟨cs, c, cd, hcs, hc, -⟩
      obtain rfl := some.inj (hchecks.symm.trans hcs)
      simp [hnone] at hc
    · rintro ⟨d', chdr', rw', hd', hch', ht', -⟩
      obtain rfl : d = d' := some.inj (hd.symm.trans hd')
      obtain rfl := ok.inj (hch.symm.trans hch')
      exact absurd ht' ht

/-- A transaction with the TxID and the proposal hash that validation asks for. -/
def sealTx (hash : Bytes → Bytes) (t : SignedTx) : SignedTx :=
  let t := { t with txId := computeProposalTxId hash t.nonce t.creator }
  { t with proposalHash := hash (t.header.channelHeader ++ t.header.signatureHeader ++
      encodeFields t.proposalPayload.toFields) }

/-- A peer on which the client's signature verifies and every policy gives one verdict. -/
def clientPeer (verdict : Bool) : Support Unit where
  hash := sha256
  verify _ _ creator sig _ := sig = str "signed by " ++ creator
  executeVscc _ _ _ _ _ := verdict
  lsccPolicy _ _ := []
  sysCcVersion := str "1.0.0"
  applyConfig _ _ := none
  deployedChaincode _ := errorf "not a deployment"

def deployedLedger : KvLedger :=
  let cd := encodeFields (bytesField 1 ccSmallBank ++ bytesField 2 (str "1.0") ++
    bytesField 3 (str "escc") ++ bytesField 4 (str "vscc") ++
    bytesField 5 (str "two of two"))
  { KvLedger.empty with
    stateDb := ⟨(∅ : KeyMap VersionedValue).insert ⟨lscc, ccSmallBank⟩ ⟨cd, ⟨0, 0⟩⟩, none⟩ }

/-- A client creates an account; it signs, and answers with a read-write set of its own. -/
def clientTx (rw : TxRwSet) : SignedTx :=
  sealTx sha256 { SignedTx.bare [] ccSmallBank
      [str "CreateAccount", str "a", str "name", str "1", str "1"] with
    signature := str "signed by client"
    actionCcId := ⟨[], ccSmallBank, str "1.0"⟩
    results := rw.toProtoBytes }

def clientBlock (rw : TxRwSet) : Block := ⟨⟨0, [], []⟩, [(clientTx rw).envelope], none⟩

def clientSchedule (rw : TxRwSet) : BatchSchedule := ⟨0, [⟨0, [(clientTx rw).txId]⟩], str "v1"⟩

def clientInvocation : Invocation :=
  ⟨ccSmallBank, str "CreateAccount", [str "a", str "name", str "1", str "1"]⟩

def accountWrite : TxRwSet := [⟨ccSmallBank, [], [], [⟨str "account:a", false, some (str "1")⟩]⟩]

def clientWrites : WriteMap :=
  (∅ : WriteMap).insert (str "account:a") (AccountRecord.marshal ⟨str "a", str "name", 1, 1⟩)

/-- The block after validation with the given policies evaluated on its transaction. -/
def clientValidated (rw : TxRwSet) (checks : List PolicyCheck) : Validated Unit :=
  ⟨(), (initBlockMetadata (clientBlock rw)).setFilter [0], [0], [checks]⟩

theorem clientTx_replayed (h : (clientTx rw).Reads) (checks : List PolicyCheck) :
    ReplayedAt MapOrder.sorted (clientValidated rw checks).block (clientSchedule rw)
      deployedLedger.stateDb 0 clientInvocation clientWrites :=
  ⟨⟨0, [(clientTx rw).txId]⟩, _, (clientTx rw).txId, (clientTx rw).envelope,
    ⟨[], [], rfl, rfl⟩, by simp, rfl, rfl, txIdOf_envelope h, invocation_envelope h rfl, rfl⟩

/-- With a write of the namespace in the endorsed set, its policy was evaluated. -/
theorem client_write_policy_accepted :
    PolicyAccepted deployedLedger.stateDb (clientValidated accountWrite
      [⟨ccSmallBank, ⟨str "1.0", str "vscc", str "two of two"⟩, true⟩]) 0 ccSmallBank := by
  have hreads : (clientTx accountWrite).Reads := SignedTx.reads (by decide +kernel)
  have hv : validate (clientPeer true) .ascending () deployedLedger (clientBlock accountWrite) =
      .ok (clientValidated accountWrite
        [⟨ccSmallBank, ⟨str "1.0", str "vscc", str "two of two"⟩, true⟩]) := by
    decide +kernel
  have hflag : FlaggedValid [0] 0 := rfl
  refine (replay_policy_accepted_iff hv hflag (clientTx_replayed hreads _)).mpr ?_
    ⟨str "account:a", by decide +kernel⟩
  intro _
  exact ⟨_, _, accountWrite, rfl, hreads.channelHeaderOf, rfl,
    ⟨_, hreads.getActionFromEnvelope, by decide +kernel⟩, _, mem_singleton.mpr rfl, rfl,
    by simp⟩

/-- With an empty read-write set nothing was evaluated on a peer whose policies nobody
meets; the transaction is valid all the same, and its replay creates the account. -/
theorem client_replayed_without_policy :
    validate (clientPeer false) .ascending () deployedLedger (clientBlock []) =
        .ok (clientValidated [] []) ∧
      FlaggedValid (clientValidated [] []).flags 0 ∧
      ReplayedAt MapOrder.sorted (clientValidated [] []).block (clientSchedule [])
        deployedLedger.stateDb 0 clientInvocation clientWrites ∧
      str "account:a" ∈ clientWrites ∧
      ¬ PolicyAccepted deployedLedger.stateDb (clientValidated [] []) 0 ccSmallBank := by
  have hreads : (clientTx []).Reads := SignedTx.reads (by decide +kernel)
  refine ⟨by decide +kernel, rfl, clientTx_replayed hreads [], by decide +kernel, ?_⟩
  rintro ⟨cs, c, cd, hcs, hc, -⟩
  cases hcs
  simp at hc

end FabricOev.Committer
