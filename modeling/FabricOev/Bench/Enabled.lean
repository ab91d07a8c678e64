import FabricOev.Bench.Commit
import FabricOev.Bench.ReplayFacts

/-!
# When a replay succeeds

For every operation, what its arguments and the accounts it names have to satisfy for the
replay to answer with writes. The conditions speak of the stored records only.
-/

namespace FabricOev.Bench

open Go Ledger Result Option

def HasAccount (db : View) (id : GoString) (acc : AccountRecord) : Prop :=
  ∃ data, db (sbKey id) = some data ∧ AccountRecord.unmarshal data = some acc

/-- The argument is a decimal `int64`, up to white space around it. -/
def IsAmount (arg : GoString) (n : Int64) : Prop := parseInt (trimSpace arg) = .ok n

variable {db : View} {acc : AccountRecord} {id : GoString} {acc' : AccountRecord} {n : Int64}
  {fn : GoString} {inv : Invocation} {a : StateDbAdapter}

theorem HasAccount.unique (h : HasAccount db id acc) (h' : HasAccount db id acc') : acc = acc' := by
  obtain ⟨data, hd, hacc⟩ := h
  obtain ⟨data', hd', hacc'⟩ := h'
  obtain rfl : data = data' := some.inj (hd.symm.trans hd')
  exact some.inj (hacc.symm.trans hacc')

inductive SbEnabled (db : View) : GoString → List GoString → Prop
  | depositChecking {id arg rest n acc} : IsAmount arg n → HasAccount db id acc →
      SbEnabled db (str "DepositChecking") (id :: arg :: rest)
  | transactSavings {id arg rest n acc} : IsAmount arg n → HasAccount db id acc →
      0 ≤ acc.savings + n → SbEnabled db (str "TransactSavings") (id :: arg :: rest)
  | writeCheck {id arg rest n acc} : IsAmount arg n → HasAccount db id acc →
      SbEnabled db (str "WriteCheck") (id :: arg :: rest)
  | amalgamate {src dst rest acc acc'} : HasAccount db src acc → HasAccount db dst acc' →
      SbEnabled db (str "Amalgamate") (src :: dst :: rest)
  | sendPayment {src dst arg rest n acc acc'} : IsAmount arg n → HasAccount db src acc →
      HasAccount db dst acc' → n ≤ acc.checking →
      SbEnabled db (str "SendPayment") (src :: dst :: arg :: rest)
  | createAccount {id name arg arg' rest n n'} : IsAmount arg n → IsAmount arg' n' →
      SbEnabled db (str "CreateAccount") (id :: name :: arg :: arg' :: rest)
  | balance {args} : SbEnabled db (str "Balance") args

/-- The YCSB operations look at the number of their arguments only. -/
inductive YcsbEnabled : GoString → List GoString → Prop
  | insert {key raw rest} : YcsbEnabled (str "Insert") (key :: raw :: rest)
  | update {key raw rest} : YcsbEnabled (str "Update") (key :: raw :: rest)
  | read {args} : YcsbEnabled (str "Read") args
  | scan {args} : YcsbEnabled (str "Scan") args

inductive Enabled (db : GoString → View) : Invocation → Prop
  | smallBank {fn args} : SbEnabled (db ccSmallBank) fn args → Enabled db ⟨ccSmallBank, fn, args⟩
  | ycsb {fn args} : YcsbEnabled fn args → Enabled db ⟨ccYcsb, fn, args⟩

theorem sbGetAccount_eq_ok : sbGetAccount db id = .ok acc ↔ HasAccount db id acc := by
  unfold sbGetAccount HasAccount
  cases hdb : db (sbKey id) with
  | none => simp
  | some data =>
    cases hdata : AccountRecord.unmarshal data with
    | none | some acc' => simp [hdata]

theorem parseAmount_eq_ok {arg : GoString} : parseAmount arg = .ok n ↔ IsAmount arg n := by
  unfold parseAmount IsAmount
  cases parseInt (trimSpace arg) with
  | error e | ok m => simp

variable {args : List GoString}

/-- An operation on one account with an amount succeeds if it has both and its own step
succeeds. -/
theorem sbReplayOne_isOk {name : String}
    {f : AccountRecord → Int64 → Except GoError AccountRecord} :
    (∃ ws, sbReplayOne name f db args = .ok ws) ↔
      ∃ id arg rest n acc acc', args = id :: arg :: rest ∧ IsAmount arg n ∧ HasAccount db id acc ∧
        f acc n = .ok acc' := by
  constructor
  · rintro ⟨ws, h⟩
    match args with
    | [] | [_] => cases h
    | id :: arg :: rest =>
      obtain ⟨n, acc, acc', hn, hacc, hf, -⟩ := sbReplayOne_ok.mp h
      exact ⟨id, arg, rest, n, acc, acc', rfl, parseAmount_eq_ok.mp hn, sbGetAccount_eq_ok.mp hacc, hf⟩
  · rintro ⟨id, arg, rest, n, acc, acc', rfl, hn, hacc, hf⟩
    exact ⟨_, sbReplayOne_ok.mpr
      ⟨n, acc, acc', parseAmount_eq_ok.mpr hn, sbGetAccount_eq_ok.mpr hacc, hf, rfl⟩⟩

theorem sbReplayTwo_isOk
    {f : AccountRecord → AccountRecord → Except GoError (AccountRecord × AccountRecord)}
    {src dst : GoString} :
    (∃ ws, sbReplayTwo f db src dst = .ok ws) ↔
      ∃ acc acc' r, HasAccount db src acc ∧ HasAccount db dst acc' ∧ f acc acc' = .ok r := by
  constructor
  · rintro ⟨ws, h⟩
    obtain ⟨acc, acc', src', dst', hs, hd, hf, -⟩ := sbReplayTwo_ok.mp h
    exact ⟨acc, acc', _, sbGetAccount_eq_ok.mp hs, sbGetAccount_eq_ok.mp hd, hf⟩
  · rintro ⟨acc, acc', ⟨src', dst'⟩, hs, hd, hf⟩
    exact ⟨_, sbReplayTwo_ok.mpr ⟨acc, acc', src', dst', sbGetAccount_eq_ok.mpr hs,
      sbGetAccount_eq_ok.mpr hd, hf, rfl⟩⟩

theorem transactSavings_isOk :
    (∃ acc', transactSavings acc n = .ok acc') ↔ 0 ≤ acc.savings + n := by
  unfold transactSavings
  split
  · rename_i h
    simpa using h
  · rename_i h
    simpa using h

theorem sendPayment_isOk : (∃ r, sendPayment n acc acc' = .ok r) ↔ n ≤ acc.checking := by
  unfold sendPayment
  split
  · rename_i h
    simpa using h
  · rename_i h
    simpa using h

theorem smallBank_isOk :
    (∃ ws, replaySmallBank db fn args = .ok ws) ↔ SbEnabled db fn args := by
  constructor
  · rintro ⟨ws, h⟩
    unfold replaySmallBank at h
    split_ifs at h with h1 h2 h3 h4 h5 h6 h7
    · obtain ⟨id, arg, rest, n, acc, acc', rfl, hn, hacc, -⟩ := sbReplayOne_isOk.mp ⟨ws, h⟩
      exact h1 ▸ .depositChecking hn hacc
    · obtain ⟨id, arg, rest, n, acc, acc', rfl, hn, hacc, hf⟩ := sbReplayOne_isOk.mp ⟨ws, h⟩
      exact h2 ▸ .transactSavings hn hacc (transactSavings_isOk.mp ⟨acc', hf⟩)
    · obtain ⟨id, arg, rest, n, acc, acc', rfl, hn, hacc, -⟩ := sbReplayOne_isOk.mp ⟨ws, h⟩
      exact h3 ▸ .writeCheck hn hacc
    · unfold sbReplayAmalgamate at h
      split at h
      · obtain ⟨acc, acc', r, hs, hd, -⟩ := sbReplayTwo_isOk.mp ⟨ws, h⟩
        exact h4 ▸ .amalgamate hs hd
      · cases h
    · unfold sbReplaySendPayment at h
      split at h
      · obtain ⟨n, hn, h⟩ := bind_ok.mp h
        obtain ⟨acc, acc', r, hs, hd, hf⟩ := sbReplayTwo_isOk.mp ⟨ws, h⟩
        exact h5 ▸ .sendPayment (parseAmount_eq_ok.mp hn) hs hd (sendPayment_isOk.mp ⟨r, hf⟩)
      · cases h
    · unfold sbReplayCreateAccount at h
      split at h
      · obtain ⟨n, hn, h⟩ := bind_ok.mp h
        obtain ⟨n', hn', -⟩ := bind_ok.mp h
        exact h6 ▸ .createAccount (parseAmount_eq_ok.mp hn) (parseAmount_eq_ok.mp hn')
      · cases h
    · exact h7 ▸ .balance
  · intro h
    cases h with
    | depositChecking hn hacc =>
      rw [smallBank_depositChecking]
      exact sbReplayOne_isOk.mpr ⟨_, _, _, _, _, _, rfl, hn, hacc, rfl⟩
    | transactSavings hn hacc hf =>
      rw [smallBank_transactSavings]
      obtain ⟨acc', hf⟩ := transactSavings_isOk.mpr hf
      exact sbReplayOne_isOk.mpr ⟨_, _, _, _, _, acc', rfl, hn, hacc, hf⟩
    | @writeCheck id arg rest n acc hn hacc =>
      rw [smallBank_writeCheck]
      have hf : ∃ acc', writeCheck acc n = .ok acc' := by
        unfold writeCheck
        split <;> exact ⟨_, rfl⟩
      obtain ⟨acc', hf⟩ := hf
      exact sbReplayOne_isOk.mpr ⟨id, arg, rest, n, acc, acc', rfl, hn, hacc, hf⟩
    | amalgamate hs hd => exact sbReplayTwo_isOk.mpr ⟨_, _, _, hs, hd, rfl⟩
    | sendPayment hn hs hd hf =>
      obtain ⟨r, hf⟩ := sendPayment_isOk.mpr hf
      obtain ⟨ws, hws⟩ := sbReplayTwo_isOk.mpr ⟨_, _, r, hs, hd, hf⟩
      exact ⟨ws, bind_ok.mpr ⟨_, parseAmount_eq_ok.mpr hn, hws⟩⟩
    | createAccount hn hn' =>
      exact ⟨_, bind_ok.mpr ⟨_, parseAmount_eq_ok.mpr hn,
        bind_ok.mpr ⟨_, parseAmount_eq_ok.mpr hn', rfl⟩⟩⟩
    | balance => exact ⟨∅, rfl⟩

theorem replayYcsb_isOk : (∃ ws, replayYcsb fn args = .ok ws) ↔ YcsbEnabled fn args := by
  constructor
  · rintro ⟨ws, h⟩
    unfold replayYcsb at h
    split_ifs at h with h1 h2 h3
    · split at h
      · rcases h1 with rfl | rfl
        · exact .insert
        · exact .update
      · cases h
    · exact h2 ▸ .read
    · exact h3 ▸ .scan
  · intro h
    cases h with
    | insert => exact ⟨_, if_pos (.inl rfl)⟩
    | update => exact ⟨_, if_pos (.inr rfl)⟩
    | read => exact ⟨∅, replayYcsb_read _⟩
    | scan => exact ⟨∅, replayYcsb_scan _⟩

theorem Invocation.replay_eq_some {ws : WriteMap} :
    inv.replay a = some ws ↔ replayTx a.getState inv.ccName inv.funcName inv.args = .ok ws := by
  unfold Invocation.replay
  cases replayTx a.getState inv.ccName inv.funcName inv.args with
  | error e | ok ws' => simp [Except.toOption]

/-- The replay of an invocation succeeds if and only if the operation is enabled. -/
theorem Invocation.replay_isSome : (∃ ws, inv.replay a = some ws) ↔ Enabled a.getState inv := by
  simp only [Invocation.replay_eq_some]
  obtain ⟨cc, fn, args⟩ := inv
  constructor
  · rintro ⟨ws, h⟩
    unfold replayTx at h
    split_ifs at h with h1 h2
    · obtain rfl : cc = ccSmallBank := h1
      exact .smallBank (smallBank_isOk.mp ⟨ws, h⟩)
    · obtain rfl : cc = ccYcsb := h2
      exact .ycsb (replayYcsb_isOk.mp ⟨ws, h⟩)
  · intro h
    cases h with
    | smallBank h =>
      obtain ⟨ws, hws⟩ := smallBank_isOk.mpr h
      exact ⟨ws, (if_pos rfl).trans hws⟩
    | ycsb h =>
      obtain ⟨ws, hws⟩ := replayYcsb_isOk.mpr h
      have hne : ccYcsb ≠ ccSmallBank := by simp [ccYcsb, ccSmallBank, str_inj]
      exact ⟨ws, (if_neg hne).trans ((if_pos rfl).trans hws)⟩

end FabricOev.Bench
